import Intranet.Proofs.Dec
import Intranet.Ref.Sample
import Intranet.Ref.State

/-!
# Encodings are self-delimiting

Everything signed or hashed is an unframed concatenation of fields, and what
keeps two values from sharing bytes is that every field tells where it ends.
One lemma per encoder says so, each read off its fields in order with
`SelfDelimiting.split`. A sum type starts with a discriminant, which rules
out the mixed pairs of constructors; the rest is field by field again.

The payloads add a domain tag in front, so payloads of two kinds differ
already in their tags.
-/

namespace Intranet

namespace Enc

variable {α : Type}

theorem u8_delimited : SelfDelimiting u8 :=
  .ofReads (p := (Dec.u8 : Reader DecodeError UInt8)) fun _ _ _ =>
    Dec.u8_ok.2 rfl

theorem u32_delimited : SelfDelimiting u32 :=
  .ofReads (p := (Dec.u32 : Reader DecodeError UInt32)) fun _ _ _ =>
    Dec.u32_ok.2 rfl

theorem u64_delimited : SelfDelimiting u64 :=
  .ofReads (p := (Dec.u64 : Reader DecodeError UInt64)) fun _ _ _ =>
    Dec.u64_ok.2 rfl

theorem i64_delimited : SelfDelimiting i64 :=
  .ofReads (p := (Dec.i64 : Reader DecodeError Int64)) fun _ _ _ =>
    Dec.i64_ok.2 rfl

theorem bool_delimited : SelfDelimiting bool :=
  .ofReads (p := (Dec.bool : Reader DecodeError Bool)) fun _ _ _ =>
    Dec.bool_ok.2 rfl

theorem fixed_delimited {n : ℕ} : SelfDelimiting (fixed (n := n)) :=
  .ofReads (p := (Dec.fixed n : Reader DecodeError (Bytes n))) fun _ _ _ =>
    Dec.fixed_ok.2 rfl

theorem bytes_delimited : SelfDelimiting bytes :=
  .ofReads (Dec.bytes_reads (ε := DecodeError))

theorem str_delimited : SelfDelimiting str :=
  .ofReads (Dec.str_reads (ε := DecodeError))

theorem option_delimited {f : α → List UInt8} (hf : SelfDelimiting f) :
    SelfDelimiting fun v => option v f := by
  intro v w r s hlen h
  cases v with
  | none =>
      cases w with
      | none => exact ⟨rfl, List.cons.inj h |>.2⟩
      | some b => exact absurd (List.cons.inj h).1 (by decide)
  | some a =>
      cases w with
      | none => exact absurd (List.cons.inj h).1 (by decide)
      | some b =>
          simp only [option, List.append_assoc] at hlen h
          obtain ⟨-, h, hlen⟩ := u8_delimited.split hlen h
          obtain ⟨rfl, h, -⟩ := hf.split hlen h
          exact ⟨rfl, h⟩

theorem seq_delimited {f : α → List UInt8} (hf : SelfDelimiting f)
    (hne : ∀ a, f a ≠ []) : SelfDelimiting fun items => seq items f := by
  intro v w r s hlen h
  have hlenw : (seq w f ++ s).length < 2 ^ 64 := by rwa [← h]
  simp only [seq, List.append_assoc] at hlen hlenw h
  have hv := Dec.length_le_flatMap hne v
  have hw := Dec.length_le_flatMap hne w
  obtain ⟨hcount, h, hrest⟩ := u64_delimited.split hlen h
  simp only [List.length_append] at hlen hlenw
  have hnat := congrArg UInt64.toNat hcount
  rw [UInt64.toNat_ofNat', UInt64.toNat_ofNat', Nat.mod_eq_of_lt (by omega),
    Nat.mod_eq_of_lt (by omega)] at hnat
  exact hf.flatMap hnat hrest h

theorem set_delimited [LinearOrder α] {f : α → List UInt8}
    (hf : SelfDelimiting f) (hne : ∀ a, f a ≠ []) :
    SelfDelimiting fun s : BTreeSet α => seq s.toList f :=
  (seq_delimited hf hne).comap fun _ _ h => BTreeSet.toList_inj.1 h

theorem map_delimited {K V : Type} [LinearOrder K] {f : K × V → List UInt8}
    (hf : SelfDelimiting f) (hne : ∀ a, f a ≠ []) :
    SelfDelimiting fun m : BTreeMap K V => seq m.toList f :=
  (seq_delimited hf hne).comap fun _ _ h => Std.ExtTreeMap.toList_inj.1 h

/-! ### No item is empty -/

theorem bigEndian_succ_ne_nil (width n : ℕ) : bigEndian (width + 1) n ≠ [] :=
  List.cons_ne_nil _ _

theorem bytes_ne_nil (b : List UInt8) : bytes b ≠ [] :=
  List.append_ne_nil_of_left_ne_nil (bigEndian_succ_ne_nil 7 _) b

theorem str_ne_nil (s : String) : str s ≠ [] := bytes_ne_nil _

theorem fixed_ne_nil {n : ℕ} (b : Bytes (n + 1)) : fixed b ≠ [] := by
  intro h
  have hlen := b.length_eq
  rw [fixed] at h
  rw [h] at hlen
  cases hlen

end Enc

/-! ## Keys and names -/

theorem Hash.delimited : SelfDelimiting fun h : Hash => Enc.fixed h.bytes :=
  Enc.fixed_delimited.comap fun _ _ => Hash.ext

theorem Signature.delimited :
    SelfDelimiting fun s : Signature => Enc.fixed s.bytes :=
  Enc.fixed_delimited.comap fun _ _ => Signature.ext

theorem PointerId.delimited :
    SelfDelimiting fun p : PointerId => Enc.fixed p.bytes :=
  Enc.fixed_delimited.comap fun _ _ => PointerId.ext

theorem NetworkId.delimited : SelfDelimiting NetworkId.encode :=
  Enc.fixed_delimited.comap fun _ _ => NetworkId.ext

theorem PerNetworkIdentityId.delimited :
    SelfDelimiting PerNetworkIdentityId.encode :=
  Enc.fixed_delimited.comap fun _ _ h =>
    PerNetworkIdentityId.ext (VerifyingKey.ext h)

theorem DevicePublicKey.delimited : SelfDelimiting DevicePublicKey.encode :=
  Enc.fixed_delimited.comap fun _ _ h =>
    DevicePublicKey.ext (VerifyingKey.ext h)

theorem PerNetworkIdentityId.encode_ne_nil (id : PerNetworkIdentityId) :
    id.encode ≠ [] :=
  Enc.fixed_ne_nil _

theorem Timestamp.delimited :
    SelfDelimiting fun t : Timestamp => Enc.i64 t.millis :=
  Enc.i64_delimited.comap fun a b h => by
    cases a
    cases b
    cases h
    rfl

theorem GroupId.delimited : SelfDelimiting fun g : GroupId => Enc.str g.name :=
  Enc.str_delimited.comap fun _ _ => GroupId.ext

theorem ContentType.delimited :
    SelfDelimiting fun t : ContentType => Enc.str t.tag :=
  Enc.str_delimited.comap fun _ _ => ContentType.ext

theorem AppName.delimited : SelfDelimiting fun n : AppName => Enc.str n.name :=
  Enc.str_delimited.comap fun _ _ => AppName.ext

/-! ## Capabilities and policy

A sum type: two different constructors differ in their first byte, so only
the pairs with equal ones are left to split. -/

theorem Capability.delimited : SelfDelimiting Capability.encode := by
  intro v w r s hlen h
  cases v <;> cases w <;>
    first
    | exact absurd (List.cons.inj h).1 (by decide)
    | exact ⟨rfl, (List.cons.inj h).2⟩
    | skip
  all_goals
    simp only [encode, List.append_assoc] at hlen h
    obtain ⟨-, h, hlen⟩ := Enc.u8_delimited.split hlen h
  case manageMembership.manageMembership =>
    obtain ⟨rfl, h, -⟩ := GroupId.delimited.split hlen h
    exact ⟨rfl, h⟩
  case publish.publish =>
    obtain ⟨rfl, h, -⟩ := ContentType.delimited.split hlen h
    exact ⟨rfl, h⟩
  case extension.extension =>
    obtain ⟨rfl, h, -⟩ := Enc.str_delimited.split hlen h
    exact ⟨rfl, h⟩

theorem Capability.encode_ne_nil (c : Capability) : c.encode ≠ [] := by
  cases c <;> exact List.cons_ne_nil _ _

theorem CapabilitySet.delimited : SelfDelimiting CapabilitySet.encode := by
  intro v w r s hlen h
  cases v <;> cases w <;>
    first
    | exact absurd (List.cons.inj h).1 (by decide)
    | exact ⟨rfl, (List.cons.inj h).2⟩
    | skip
  simp only [encode, List.append_assoc] at hlen h
  obtain ⟨-, h, hlen⟩ := Enc.u8_delimited.split hlen h
  obtain ⟨rfl, h, -⟩ := (Enc.set_delimited Capability.delimited
    Capability.encode_ne_nil).split hlen h
  exact ⟨rfl, h⟩

theorem PolicyValue.delimited : SelfDelimiting PolicyValue.encode := by
  intro v w r s hlen h
  cases v <;> cases w <;>
    first
    | exact absurd (List.cons.inj h).1 (by decide)
    | skip
  all_goals
    simp only [encode, List.append_assoc] at hlen h
    obtain ⟨-, h, hlen⟩ := Enc.u8_delimited.split hlen h
  case int.int =>
    obtain ⟨rfl, h, -⟩ := Enc.i64_delimited.split hlen h
    exact ⟨rfl, h⟩
  case text.text =>
    obtain ⟨rfl, h, -⟩ := Enc.str_delimited.split hlen h
    exact ⟨rfl, h⟩
  case flag.flag =>
    obtain ⟨rfl, h, -⟩ := Enc.bool_delimited.split hlen h
    exact ⟨rfl, h⟩

/-- The discriminants of the small enumerations. -/
def AdmissionMode.encode : AdmissionMode → List UInt8
  | .autoAdmit => Enc.variant 0
  | .explicitIntake => Enc.variant 1

def GovernanceModel.encode : GovernanceModel → List UInt8
  | .capabilityHolders => Enc.variant 0
  | .memberVote electorate quorum windowMillis =>
      Enc.variant 1 ++ (Enc.str electorate.name ++ (Enc.u32 quorum ++
        Enc.i64 windowMillis))

def HistoryAccess.encode : HistoryAccess → List UInt8
  | .currentEpochForward => Enc.variant 0
  | .fullHistory => Enc.variant 1

def Tier.encode (tier : Tier) : List UInt8 :=
  Enc.u8 (match tier with
    | .ordinary => 0
    | .governance => 1)

def NetworkPolicy.encodeExtension (e : String × Tier) : List UInt8 :=
  Enc.str e.1 ++ e.2.encode

def NetworkPolicy.encodeAppPolicy (e : String × PolicyValue) : List UInt8 :=
  Enc.str e.1 ++ e.2.encode

theorem AdmissionMode.delimited : SelfDelimiting AdmissionMode.encode := by
  intro v w r s hlen h
  cases v <;> cases w <;>
    first
    | exact absurd (List.cons.inj h).1 (by decide)
    | exact ⟨rfl, (List.cons.inj h).2⟩

theorem HistoryAccess.delimited : SelfDelimiting HistoryAccess.encode := by
  intro v w r s hlen h
  cases v <;> cases w <;>
    first
    | exact absurd (List.cons.inj h).1 (by decide)
    | exact ⟨rfl, (List.cons.inj h).2⟩

theorem Tier.delimited : SelfDelimiting Tier.encode := by
  intro v w r s hlen h
  cases v <;> cases w <;>
    first
    | exact absurd (List.cons.inj h).1 (by decide)
    | exact ⟨rfl, (List.cons.inj h).2⟩

theorem GovernanceModel.delimited : SelfDelimiting GovernanceModel.encode := by
  intro v w r s hlen h
  cases v <;> cases w <;>
    first
    | exact absurd (List.cons.inj h).1 (by decide)
    | exact ⟨rfl, (List.cons.inj h).2⟩
    | skip
  simp only [encode, List.append_assoc] at hlen h
  obtain ⟨-, h, hlen⟩ := Enc.u8_delimited.split hlen h
  obtain ⟨rfl, h, hlen⟩ := GroupId.delimited.split hlen h
  obtain ⟨rfl, h, hlen⟩ := Enc.u32_delimited.split hlen h
  obtain ⟨rfl, h, -⟩ := Enc.i64_delimited.split hlen h
  exact ⟨rfl, h⟩

/-- A name and a value: an item of a map. -/
theorem Enc.pair_delimited {V : Type} {f : V → List UInt8}
    (hf : SelfDelimiting f) :
    SelfDelimiting fun e : String × V => Enc.str e.1 ++ f e.2 := by
  intro v w r s hlen h
  simp only [List.append_assoc] at hlen h
  obtain ⟨hkey, h, hlen⟩ := Enc.str_delimited.split hlen h
  obtain ⟨hvalue, h, -⟩ := hf.split hlen h
  exact ⟨Prod.ext hkey hvalue, h⟩

theorem Enc.pair_ne_nil {V : Type} {f : V → List UInt8} (e : String × V) :
    Enc.str e.1 ++ f e.2 ≠ [] :=
  List.append_ne_nil_of_left_ne_nil (Enc.str_ne_nil _) _

namespace NetworkPolicy

/-- The encoding with its parts named, the fields in the order written. -/
theorem encode_eq (p : NetworkPolicy) :
    p.encode = p.admissionMode.encode ++ (p.governanceModel.encode ++
      (p.historyAccess.encode ++
      (Enc.seq p.contentTypeAllowlist.toList (fun t => Enc.str t.tag) ++
      (Enc.seq p.extensionCapabilities.toList encodeExtension ++
      (Enc.seq p.appPolicy.toList encodeAppPolicy ++
      (Enc.seq p.bootstrapRelays Enc.str ++ (Enc.u32 p.finality.k ++
      (Enc.i64 p.finality.tMillis ++
      (Enc.u32 p.replicationFactor.toUInt32 ++
      (Enc.u8 p.meshRelayThreshold ++ Enc.u32 p.targetChunkSize)))))))))) := by
  simp only [encode, List.append_assoc]
  rfl

theorem delimited : SelfDelimiting NetworkPolicy.encode := by
  intro v w r s hlen h
  simp only [encode_eq, List.append_assoc] at hlen h
  obtain ⟨hadm, h, hlen⟩ := AdmissionMode.delimited.split hlen h
  obtain ⟨hmodel, h, hlen⟩ := GovernanceModel.delimited.split hlen h
  obtain ⟨hhist, h, hlen⟩ := HistoryAccess.delimited.split hlen h
  obtain ⟨hallow, h, hlen⟩ := (Enc.set_delimited ContentType.delimited
    fun t => Enc.str_ne_nil t.tag).split hlen h
  obtain ⟨hext, h, hlen⟩ := (Enc.map_delimited
    (Enc.pair_delimited Tier.delimited) Enc.pair_ne_nil).split hlen h
  obtain ⟨happ, h, hlen⟩ := (Enc.map_delimited
    (Enc.pair_delimited PolicyValue.delimited) Enc.pair_ne_nil).split hlen h
  obtain ⟨hrelays, h, hlen⟩ :=
    (Enc.seq_delimited Enc.str_delimited Enc.str_ne_nil).split hlen h
  obtain ⟨hk, h, hlen⟩ := Enc.u32_delimited.split hlen h
  obtain ⟨ht, h, hlen⟩ := Enc.i64_delimited.split hlen h
  obtain ⟨hrep, h, hlen⟩ := Enc.u32_delimited.split hlen h
  obtain ⟨hmesh, h, hlen⟩ := Enc.u8_delimited.split hlen h
  obtain ⟨hchunk, h, -⟩ := Enc.u32_delimited.split hlen h
  have hrep16 := UInt16.toUInt32_inj.1 hrep
  obtain ⟨_, _, _, _, _, ⟨_, _⟩, _, _, _, _, _⟩ := v
  obtain ⟨_, _, _, _, _, ⟨_, _⟩, _, _, _, _, _⟩ := w
  dsimp only at *
  subst_vars
  exact ⟨rfl, rfl⟩

end NetworkPolicy

/-! ## Votes and bodies -/

theorem InviteProvenance.delimited : SelfDelimiting InviteProvenance.encode := by
  intro v w r s hlen h
  simp only [encode, List.append_assoc] at hlen h
  obtain ⟨hid, h, hlen⟩ := Hash.delimited.split hlen h
  obtain ⟨hissuer, h, -⟩ := PerNetworkIdentityId.delimited.split hlen h
  obtain ⟨_, _⟩ := v
  obtain ⟨_, _⟩ := w
  dsimp only at *
  subst_vars
  exact ⟨rfl, rfl⟩

theorem VoteProposal.delimited : SelfDelimiting VoteProposal.encode := by
  intro v w r s hlen h
  simp only [encode, List.append_assoc] at hlen h
  obtain ⟨hsubject, h, hlen⟩ := Hash.delimited.split hlen h
  obtain ⟨hgroup, h, hlen⟩ := GroupId.delimited.split hlen h
  obtain ⟨hvoters, h, hlen⟩ := (Enc.set_delimited PerNetworkIdentityId.delimited
    PerNetworkIdentityId.encode_ne_nil).split hlen h
  obtain ⟨href, h, hlen⟩ := Hash.delimited.split hlen h
  obtain ⟨hclose, h, hlen⟩ := Timestamp.delimited.split hlen h
  obtain ⟨hquorum, h, -⟩ := Enc.u32_delimited.split hlen h
  obtain ⟨_, _, _, _, _, _⟩ := v
  obtain ⟨_, _, _, _, _, _⟩ := w
  dsimp only at *
  subst_vars
  exact ⟨rfl, rfl⟩

theorem Ballot.delimited : SelfDelimiting Ballot.encode := by
  intro v w r s hlen h
  simp only [encode, List.append_assoc] at hlen h
  obtain ⟨hid, h, hlen⟩ := Hash.delimited.split hlen h
  obtain ⟨hvoter, h, hlen⟩ := PerNetworkIdentityId.delimited.split hlen h
  obtain ⟨happrove, h, hlen⟩ := Enc.bool_delimited.split hlen h
  obtain ⟨hcast, h, hlen⟩ := Timestamp.delimited.split hlen h
  obtain ⟨hsig, h, -⟩ := Signature.delimited.split hlen h
  obtain ⟨_, _, _, _, _⟩ := v
  obtain ⟨_, _, _, _, _⟩ := w
  dsimp only at *
  subst_vars
  exact ⟨rfl, rfl⟩

theorem Ballot.encode_ne_nil (b : Ballot) : b.encode ≠ [] := by
  simp only [encode, List.append_assoc]
  exact List.append_ne_nil_of_left_ne_nil (Enc.fixed_ne_nil _) _

theorem QuorumCertificate.delimited :
    SelfDelimiting QuorumCertificate.encode := by
  intro v w r s hlen h
  simp only [encode, List.append_assoc] at hlen h
  obtain ⟨hid, h, hlen⟩ := Hash.delimited.split hlen h
  obtain ⟨hballots, h, hlen⟩ :=
    (Enc.seq_delimited Ballot.delimited Ballot.encode_ne_nil).split hlen h
  obtain ⟨hroot, h, -⟩ := Hash.delimited.split hlen h
  obtain ⟨_, _, _⟩ := v
  obtain ⟨_, _, _⟩ := w
  dsimp only at *
  subst_vars
  exact ⟨rfl, rfl⟩

def Cascade.encode (c : Cascade) : List UInt8 := Enc.option c.windowMillis Enc.i64

theorem Cascade.delimited : SelfDelimiting Cascade.encode :=
  (Enc.option_delimited Enc.i64_delimited).comap fun a b h => by
    cases a
    cases b
    cases h
    rfl

def MembershipAction.encode : MembershipAction → List UInt8
  | .add viaInvite =>
      Enc.variant 0 ++ Enc.option viaInvite InviteProvenance.encode
  | .remove cascade => Enc.variant 1 ++ Enc.option cascade Cascade.encode

theorem MembershipAction.delimited :
    SelfDelimiting MembershipAction.encode := by
  intro v w r s hlen h
  cases v <;> cases w <;>
    first
    | exact absurd (List.cons.inj h).1 (by decide)
    | skip
  all_goals
    simp only [encode, List.append_assoc] at hlen h
    obtain ⟨-, h, hlen⟩ := Enc.u8_delimited.split hlen h
  case add.add =>
    obtain ⟨rfl, h, -⟩ :=
      (Enc.option_delimited InviteProvenance.delimited).split hlen h
    exact ⟨rfl, h⟩
  case remove.remove =>
    obtain ⟨rfl, h, -⟩ := (Enc.option_delimited Cascade.delimited).split hlen h
    exact ⟨rfl, h⟩

def RotationReason.encode (reason : RotationReason) : List UInt8 :=
  Enc.u8 (match reason with
    | .memberRevoked => 0
    | .selfInitiated => 1
    | .memberAdmitted => 2)

theorem RotationReason.delimited : SelfDelimiting RotationReason.encode := by
  intro v w r s hlen h
  cases v <;> cases w <;>
    first
    | exact absurd (List.cons.inj h).1 (by decide)
    | exact ⟨rfl, (List.cons.inj h).2⟩

def ModerationAction.encode (action : ModerationAction) : List UInt8 :=
  Enc.u8 (match action with
    | .delist => 0
    | .relist => 1)

theorem ModerationAction.delimited : SelfDelimiting ModerationAction.encode := by
  intro v w r s hlen h
  cases v <;> cases w <;>
    first
    | exact absurd (List.cons.inj h).1 (by decide)
    | exact ⟨rfl, (List.cons.inj h).2⟩

def ModerationEntry.encode (m : ModerationEntry) : List UInt8 :=
  m.action.encode ++ Enc.fixed m.targetPointerId.bytes

theorem ModerationEntry.delimited : SelfDelimiting ModerationEntry.encode := by
  intro v w r s hlen h
  simp only [encode, List.append_assoc] at hlen h
  obtain ⟨haction, h, hlen⟩ := ModerationAction.delimited.split hlen h
  obtain ⟨htarget, h, -⟩ := PointerId.delimited.split hlen h
  obtain ⟨_, _⟩ := v
  obtain ⟨_, _⟩ := w
  dsimp only at *
  subst_vars
  exact ⟨rfl, rfl⟩

/-- A device certificate inside an entry: its fields, then its signature. -/
def DeviceCertificate.encode (cert : DeviceCertificate) : List UInt8 :=
  cert.network.encode ++ (cert.identity.encode ++ (cert.device.encode ++
    (Enc.str cert.label ++ (Enc.i64 cert.issuedAt.millis ++
      Enc.fixed cert.signature.bytes))))

theorem DeviceCertificate.delimited :
    SelfDelimiting DeviceCertificate.encode := by
  intro v w r s hlen h
  simp only [encode, List.append_assoc] at hlen h
  obtain ⟨hnet, h, hlen⟩ := NetworkId.delimited.split hlen h
  obtain ⟨hid, h, hlen⟩ := PerNetworkIdentityId.delimited.split hlen h
  obtain ⟨hdev, h, hlen⟩ := DevicePublicKey.delimited.split hlen h
  obtain ⟨hlabel, h, hlen⟩ := Enc.str_delimited.split hlen h
  obtain ⟨hissued, h, hlen⟩ := Timestamp.delimited.split hlen h
  obtain ⟨hsig, h, -⟩ := Signature.delimited.split hlen h
  obtain ⟨_, _, _, _, _, _⟩ := v
  obtain ⟨_, _, _, _, _, _⟩ := w
  dsimp only at *
  subst_vars
  exact ⟨rfl, rfl⟩

/-- A revocation inside an entry. -/
def DeviceCertificateRevocation.encode (r : DeviceCertificateRevocation) :
    List UInt8 :=
  r.network.encode ++ (r.identity.encode ++ (r.device.encode ++
    (Enc.i64 r.revokedAt.millis ++ Enc.fixed r.signature.bytes)))

theorem DeviceCertificateRevocation.delimited :
    SelfDelimiting DeviceCertificateRevocation.encode := by
  intro v w r s hlen h
  simp only [encode, List.append_assoc] at hlen h
  obtain ⟨hnet, h, hlen⟩ := NetworkId.delimited.split hlen h
  obtain ⟨hid, h, hlen⟩ := PerNetworkIdentityId.delimited.split hlen h
  obtain ⟨hdev, h, hlen⟩ := DevicePublicKey.delimited.split hlen h
  obtain ⟨hrevoked, h, hlen⟩ := Timestamp.delimited.split hlen h
  obtain ⟨hsig, h, -⟩ := Signature.delimited.split hlen h
  obtain ⟨_, _, _, _, _⟩ := v
  obtain ⟨_, _, _, _, _⟩ := w
  dsimp only at *
  subst_vars
  exact ⟨rfl, rfl⟩

namespace EntryBody

/-- The encoding with its parts named: a discriminant, then the fields. -/
theorem encode_eq (body : EntryBody) :
    body.encode = match body with
      | genesis network policy everyoneCapabilities =>
          Enc.variant 0 ++ (network.encode ++ (policy.encode ++
            Enc.seq everyoneCapabilities.toList Capability.encode))
      | defineGroup group capabilities =>
          Enc.variant 1 ++ (Enc.str group.name ++ capabilities.encode)
      | membershipChange group identity action =>
          Enc.variant 2 ++ (Enc.str group.name ++ (identity.encode ++
            action.encode))
      | policyChange policy => Enc.variant 3 ++ policy.encode
      | contentTypePolicy allowlist =>
          Enc.variant 4 ++ Enc.seq allowlist.toList fun t => Enc.str t.tag
      | epochRotation reason commit =>
          Enc.variant 5 ++ (reason.encode ++ Enc.bytes commit)
      | voteProposed proposal => Enc.variant 10 ++ proposal.encode
      | voteOutcome certificate => Enc.variant 11 ++ certificate.encode
      | deviceEnrollment cert => Enc.variant 6 ++ cert.encode
      | deviceRevocation revocation => Enc.variant 7 ++ revocation.encode
      | appNameRegistration name appId =>
          Enc.variant 9 ++ (Enc.str name.name ++ Enc.fixed appId.bytes)
      | appEntry space kind required payload =>
          Enc.variant 12 ++ (Enc.str space ++ (Enc.str kind ++
            (required.encode ++ Enc.bytes payload)))
      | moderation m => Enc.variant 8 ++ m.encode := by
  cases body <;> simp only [encode, List.append_assoc] <;> rfl

theorem delimited : SelfDelimiting EntryBody.encode := by
  intro v w r s hlen h
  cases v <;> cases w <;>
    first
    | exact absurd (List.cons.inj h).1 (by decide)
    | skip
  all_goals
    simp only [encode_eq, List.append_assoc] at hlen h
    obtain ⟨-, h, hlen⟩ := Enc.u8_delimited.split hlen h
  case genesis.genesis =>
    obtain ⟨rfl, h, hlen⟩ := NetworkId.delimited.split hlen h
    obtain ⟨rfl, h, hlen⟩ := NetworkPolicy.delimited.split hlen h
    obtain ⟨rfl, h, -⟩ := (Enc.set_delimited Capability.delimited
      Capability.encode_ne_nil).split hlen h
    exact ⟨rfl, h⟩
  case defineGroup.defineGroup =>
    obtain ⟨rfl, h, hlen⟩ := GroupId.delimited.split hlen h
    obtain ⟨rfl, h, -⟩ := CapabilitySet.delimited.split hlen h
    exact ⟨rfl, h⟩
  case membershipChange.membershipChange =>
    obtain ⟨rfl, h, hlen⟩ := GroupId.delimited.split hlen h
    obtain ⟨rfl, h, hlen⟩ := PerNetworkIdentityId.delimited.split hlen h
    obtain ⟨rfl, h, -⟩ := MembershipAction.delimited.split hlen h
    exact ⟨rfl, h⟩
  case policyChange.policyChange =>
    obtain ⟨rfl, h, -⟩ := NetworkPolicy.delimited.split hlen h
    exact ⟨rfl, h⟩
  case contentTypePolicy.contentTypePolicy =>
    obtain ⟨rfl, h, -⟩ := (Enc.set_delimited ContentType.delimited
      fun t => Enc.str_ne_nil t.tag).split hlen h
    exact ⟨rfl, h⟩
  case epochRotation.epochRotation =>
    obtain ⟨rfl, h, hlen⟩ := RotationReason.delimited.split hlen h
    obtain ⟨rfl, h, -⟩ := Enc.bytes_delimited.split hlen h
    exact ⟨rfl, h⟩
  case voteProposed.voteProposed =>
    obtain ⟨rfl, h, -⟩ := VoteProposal.delimited.split hlen h
    exact ⟨rfl, h⟩
  case voteOutcome.voteOutcome =>
    obtain ⟨rfl, h, -⟩ := QuorumCertificate.delimited.split hlen h
    exact ⟨rfl, h⟩
  case deviceEnrollment.deviceEnrollment =>
    obtain ⟨rfl, h, -⟩ := DeviceCertificate.delimited.split hlen h
    exact ⟨rfl, h⟩
  case deviceRevocation.deviceRevocation =>
    obtain ⟨rfl, h, -⟩ := DeviceCertificateRevocation.delimited.split hlen h
    exact ⟨rfl, h⟩
  case moderation.moderation =>
    obtain ⟨rfl, h, -⟩ := ModerationEntry.delimited.split hlen h
    exact ⟨rfl, h⟩
  case appNameRegistration.appNameRegistration =>
    obtain ⟨rfl, h, hlen⟩ := AppName.delimited.split hlen h
    obtain ⟨rfl, h, -⟩ := PointerId.delimited.split hlen h
    exact ⟨rfl, h⟩
  case appEntry.appEntry =>
    obtain ⟨rfl, h, hlen⟩ := Enc.str_delimited.split hlen h
    obtain ⟨rfl, h, hlen⟩ := Enc.str_delimited.split hlen h
    obtain ⟨rfl, h, hlen⟩ := Capability.delimited.split hlen h
    obtain ⟨rfl, h, -⟩ := Enc.bytes_delimited.split hlen h
    exact ⟨rfl, h⟩

end EntryBody

/-! ## Signed payloads -/

/-- Encodings under two domain tags never agree. -/
theorem Enc.domain_ne {tag tag' : String} (hne : tag ≠ tag')
    (htag : (Enc.domain tag).length < 2 ^ 64)
    (htag' : (Enc.domain tag').length < 2 ^ 64) (x y : List UInt8) :
    Enc.domain tag ++ x ≠ Enc.domain tag' ++ y := by
  intro h
  have hread := Dec.str_reads (ε := DecodeError) tag htag x
  rw [show Enc.str tag ++ x = Enc.str tag' ++ y from h,
    Dec.str_reads tag' htag' y] at hread
  cases hread
  exact hne rfl

/-- The bytes a proposal's identifier is the hash of. -/
def VoteProposal.voteIdInput (p : VoteProposal) : List UInt8 :=
  Enc.domain "intranet.vote-proposal.v1" ++ p.encode

theorem VoteProposal.voteId_eq (C : Crypto) (p : VoteProposal) :
    p.voteId C = C.hashBytes p.voteIdInput := by
  rw [voteId, voteIdInput]

/-- The bytes an action hash is the hash of. -/
def EntryBody.actionHashInput (body : EntryBody) : List UInt8 :=
  Enc.domain "intranet.governance-action-hash.v1" ++ body.encode

theorem EntryBody.actionHash_eq (C : Crypto) (body : EntryBody) :
    body.actionHash C = C.hashBytes body.actionHashInput := by
  rw [actionHash, actionHashInput]

theorem LogEntry.payload_inj {e e' : LogEntry}
    (hlen : e.payload.length < 2 ^ 64) (h : e.payload = e'.payload) :
    (e.parent, e.timestamp, e.author, e.body) =
      (e'.parent, e'.timestamp, e'.author, e'.body) := by
  rw [← List.append_nil e.payload] at hlen
  rw [← List.append_nil e.payload, ← List.append_nil e'.payload] at h
  simp only [payload, List.append_assoc] at hlen h
  obtain ⟨-, h, hlen⟩ := Enc.str_delimited.split hlen h
  obtain ⟨hparent, h, hlen⟩ := (Enc.option_delimited Hash.delimited).split hlen h
  obtain ⟨htime, h, hlen⟩ := Timestamp.delimited.split hlen h
  obtain ⟨hauthor, h, hlen⟩ := PerNetworkIdentityId.delimited.split hlen h
  obtain ⟨hbody, -, -⟩ := EntryBody.delimited.split hlen h
  rw [hparent, htime, hauthor, hbody]

theorem VoteProposal.voteIdInput_inj {p q : VoteProposal}
    (hlen : p.voteIdInput.length < 2 ^ 64)
    (h : p.voteIdInput = q.voteIdInput) : p = q := by
  obtain ⟨-, h, hlen⟩ := Enc.str_delimited.split hlen h
  exact VoteProposal.delimited.injective hlen h

theorem EntryBody.actionHashInput_inj {body body' : EntryBody}
    (hlen : body.actionHashInput.length < 2 ^ 64)
    (h : body.actionHashInput = body'.actionHashInput) : body = body' := by
  obtain ⟨-, h, hlen⟩ := Enc.str_delimited.split hlen h
  exact EntryBody.delimited.injective hlen h

/-- Every field of a ballot has a fixed width. -/
theorem Ballot.length_payload (b : Ballot) : b.payload.length < 2 ^ 64 := by
  have htag : (Enc.domain "intranet.ballot.v1").length = 26 := by decide
  simp only [payload, List.length_append, htag, Enc.fixed, Bytes.length_eq,
    PerNetworkIdentityId.encode, Enc.bool, Enc.u8, Enc.i64, Enc.u64,
    Enc.length_bigEndian, List.length_singleton]
  omega

theorem Ballot.payload_inj {b b' : Ballot} (h : b.payload = b'.payload) :
    (b.voteId, b.voter, b.approve, b.castAt) =
      (b'.voteId, b'.voter, b'.approve, b'.castAt) := by
  have hlen := b.length_payload
  rw [← List.append_nil b.payload] at hlen
  rw [← List.append_nil b.payload, ← List.append_nil b'.payload] at h
  simp only [payload, List.append_assoc] at hlen h
  obtain ⟨-, h, hlen⟩ := Enc.str_delimited.split hlen h
  obtain ⟨hid, h, hlen⟩ := Hash.delimited.split hlen h
  obtain ⟨hvoter, h, hlen⟩ := PerNetworkIdentityId.delimited.split hlen h
  obtain ⟨happrove, h, hlen⟩ := Enc.bool_delimited.split hlen h
  obtain ⟨hcast, -, -⟩ := Timestamp.delimited.split hlen h
  rw [hid, hvoter, happrove, hcast]

/-- What is signed or voted on is one value: equal bytes come from equal
values, and the bytes of one kind are never those of another. The bound is
the one a byte vector's length has. -/
theorem signed_payloads_injective :
    (∀ e e' : LogEntry, e.payload.length < 2 ^ 64 → e.payload = e'.payload →
      (e.parent, e.timestamp, e.author, e.body) =
        (e'.parent, e'.timestamp, e'.author, e'.body)) ∧
    (∀ p q : VoteProposal, p.voteIdInput.length < 2 ^ 64 →
      p.voteIdInput = q.voteIdInput → p = q) ∧
    (∀ b b' : Ballot, b.payload = b'.payload →
      (b.voteId, b.voter, b.approve, b.castAt) =
        (b'.voteId, b'.voter, b'.approve, b'.castAt)) ∧
    (∀ body body' : EntryBody, body.actionHashInput.length < 2 ^ 64 →
      body.actionHashInput = body'.actionHashInput → body = body') ∧
    ∀ (e : LogEntry) (p : VoteProposal) (b : Ballot) (body : EntryBody),
      e.payload ≠ p.voteIdInput ∧ e.payload ≠ b.payload ∧
        e.payload ≠ body.actionHashInput ∧ p.voteIdInput ≠ b.payload ∧
        p.voteIdInput ≠ body.actionHashInput ∧
        b.payload ≠ body.actionHashInput := by
  refine ⟨fun e e' => LogEntry.payload_inj,
    fun p q => VoteProposal.voteIdInput_inj, fun b b' => Ballot.payload_inj,
    fun body body' => EntryBody.actionHashInput_inj, fun e p b body => ?_⟩
  simp only [LogEntry.payload, Ballot.payload, VoteProposal.voteIdInput,
    EntryBody.actionHashInput, List.append_assoc]
  refine ⟨?_, ?_, ?_, ?_, ?_, ?_⟩
  all_goals exact Enc.domain_ne (by decide) (by decide) (by decide) _ _

/-- Two admissions by one author at one time differ in their payloads. -/
theorem signed_payloads_injective_admissions :
    (Sample.entry 1 (some 0) 1 1 (Sample.admits 2)).payload ≠
      (Sample.entry 1 (some 0) 1 1 (Sample.admits 3)).payload := by
  intro h
  have heq := signed_payloads_injective.1
    (Sample.entry 1 (some 0) 1 1 (Sample.admits 2))
    (Sample.entry 1 (some 0) 1 1 (Sample.admits 3)) (by decide +kernel) h
  exact absurd (congrArg (fun t => t.2.2.2) heq) (by decide +kernel)

end Intranet
