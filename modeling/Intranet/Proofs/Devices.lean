import Intranet.Proofs.Replay
import Intranet.Ref.Sample

/-!
# Who can move a device's authority

A device record is accepted from the identity it names and from nobody else.
The slot it lands in is another matter: certificates and revocations are kept
by device key alone, so two identities that name the same device act on one
slot, and the later one takes the device away from the earlier.
`mutate_devices` says once what an entry does to the two collections; what
happens to one identity's authority over one device follows from it.
-/

namespace Intranet

/-- The entry is a device record, an enrollment or a revocation, for
`device`. -/
def EntryBody.RecordsDevice (body : EntryBody) (device : DevicePublicKey) :
    Prop :=
  (∃ cert, body = .deviceEnrollment cert ∧ cert.device = device) ∨
    ∃ revocation, body = .deviceRevocation revocation ∧
      revocation.device = device

namespace GovernanceState

variable {C : Crypto} {s s' : GovernanceState} {e : LogEntry}
  {device : DevicePublicKey} {identity : PerNetworkIdentityId}

theorem deviceIsAuthorized_iff :
    s.deviceIsAuthorized device identity = true ↔
      device ∉ s.revokedDevices ∧
        ∃ cert, s.deviceCertificates[device]? = some cert ∧
          cert.identity = identity := by
  rw [deviceIsAuthorized]
  split
  · next hrevoked => simp [Std.ExtTreeSet.contains_iff_mem.1 hrevoked]
  · next hrevoked =>
      have hnot : device ∉ s.revokedDevices := by simpa using hrevoked
      simp [hnot, Option.any_eq_true]

theorem not_authorized_of_revoked (h : device ∈ s.revokedDevices) :
    s.deviceIsAuthorized device identity = false := by
  rw [Bool.eq_false_iff, Ne, deviceIsAuthorized_iff]
  exact fun hgiven => hgiven.1 h

/-! ## One step -/

/-- What an entry does to the device records: an enrollment of a key that is
not revoked takes the key's slot, a revocation empties it for good, and
anything else leaves both collections alone. -/
theorem mutate_devices (h : s.mutate C e = .ok s') :
    (∃ cert, e.body = .deviceEnrollment cert ∧
      cert.device ∉ s.revokedDevices ∧
      s'.deviceCertificates = s.deviceCertificates.insert cert.device cert ∧
      s'.revokedDevices = s.revokedDevices) ∨
    (∃ revocation, e.body = .deviceRevocation revocation ∧
      s'.deviceCertificates = s.deviceCertificates.erase revocation.device ∧
      s'.revokedDevices = s.revokedDevices.insert revocation.device) ∨
    ((∀ cert, e.body = .deviceEnrollment cert →
        cert.device ∈ s.revokedDevices) ∧
      (∀ revocation, e.body ≠ .deviceRevocation revocation) ∧
      s'.deviceCertificates = s.deviceCertificates ∧
      s'.revokedDevices = s.revokedDevices) := by
  by_cases hm : ∃ g id action, e.body = .membershipChange g id action
  · obtain ⟨g, id, action, hb⟩ := hm
    obtain ⟨group, members, -, -, rfl⟩ := mutate_membershipChange h hb
    exact Or.inr (Or.inr ⟨by simp [hb], by simp [hb], rfl, rfl⟩)
  · unfold mutate at h
    split at h
    case h_3 hb => exact absurd ⟨_, _, _, hb⟩ hm
    case h_9 cert hb =>
      split at h
      · next hrevoked =>
          cases h
          refine Or.inr (Or.inr ⟨fun c hc => ?_, by simp [hb], rfl, rfl⟩)
          rw [hb] at hc
          cases hc
          exact Std.ExtTreeSet.contains_iff_mem.1 hrevoked
      · next hrevoked =>
          cases h
          exact Or.inl ⟨cert, hb, by simpa using hrevoked, rfl, rfl⟩
    case h_10 revocation hb =>
      cases h
      exact Or.inr (Or.inl ⟨revocation, hb, rfl, rfl⟩)
    all_goals
      rename_i hb
      refine Or.inr (Or.inr ⟨by simp [hb], by simp [hb], ?_⟩)
      (repeat' split at h) <;> cases h <;> exact ⟨rfl, rfl⟩

/-- An accepted enrollment names its author as the device's identity. -/
theorem enrollment_author {cert : DeviceCertificate}
    (h : s.apply C e = .ok s') (hbody : e.body = .deviceEnrollment cert) :
    cert.identity = e.author := by
  obtain ⟨required, hreq, -⟩ := authorize_ok (apply_ok h).authorized
  rw [requiredCapability, hbody] at hreq
  dsimp only at hreq
  split at hreq
  · cases hreq
  · rw [authorizeDeviceRecord] at hreq
    split at hreq
    · cases hreq
    · next hauthor => exact (not_not.1 hauthor).symm

theorem revokedDevices_subset (h : s.apply C e = .ok s')
    (hd : device ∈ s.revokedDevices) : device ∈ s'.revokedDevices := by
  rcases mutate_devices (apply_ok h).mutated with
    ⟨cert, -, -, -, hr⟩ | ⟨revocation, -, -, hr⟩ | ⟨-, -, -, hr⟩
  · rwa [hr]
  · rw [hr]
    exact (BTreeSet.mem_insert_iff _ _ _).2 (Or.inr hd)
  · rwa [hr]

/-- An entry of somebody else moves `identity`'s authority over a device only
by being a record for that very device. -/
theorem authority_of_not_records (h : s.apply C e = .ok s')
    (hother : ¬ e.body.RecordsDevice device) :
    s'.deviceIsAuthorized device identity =
      s.deviceIsAuthorized device identity := by
  rw [Bool.eq_iff_iff, deviceIsAuthorized_iff, deviceIsAuthorized_iff]
  rcases mutate_devices (apply_ok h).mutated with
    ⟨cert, hb, -, hc, hr⟩ | ⟨revocation, hb, hc, hr⟩ | ⟨-, -, hc, hr⟩
  · have hne : cert.device ≠ device := fun hd =>
      hother (Or.inl ⟨cert, hb, hd⟩)
    rw [hc, hr, BTreeMap.getElem?_insert_ite, if_neg hne]
  · have hne : revocation.device ≠ device := fun hd =>
      hother (Or.inr ⟨revocation, hb, hd⟩)
    rw [hc, hr, BTreeMap.getElem?_erase_ite, if_neg hne,
      BTreeSet.mem_insert_iff, or_iff_right hne]
  · rw [hc, hr]

/-- After somebody else's record for the device, `identity` has no authority
over it. -/
theorem no_authority_of_records (h : s.apply C e = .ok s')
    (hauthor : e.author ≠ identity) (hrec : e.body.RecordsDevice device) :
    s'.deviceIsAuthorized device identity = false := by
  rcases hrec with ⟨cert, hb, rfl⟩ | ⟨revocation, hb, rfl⟩
  · have hid := enrollment_author h hb
    rw [Bool.eq_false_iff, Ne, deviceIsAuthorized_iff]
    intro hgiven
    obtain ⟨hnot, stored, hstored, howner⟩ := hgiven
    rcases mutate_devices (apply_ok h).mutated with
      ⟨cert', hb', -, hc, -⟩ | ⟨revocation, hb', -⟩ | ⟨hrevoked, -, -, hr⟩
    · rw [hb] at hb'
      cases hb'
      rw [hc, BTreeMap.getElem?_insert_ite, if_pos rfl] at hstored
      cases hstored
      exact hauthor (hid.symm.trans howner)
    · rw [hb] at hb'
      cases hb'
    · rw [hr] at hnot
      exact hnot (hrevoked cert hb)
  · refine not_authorized_of_revoked ?_
    rcases mutate_devices (apply_ok h).mutated with
      ⟨cert, hb', -⟩ | ⟨revocation', hb', -, hr⟩ | ⟨-, hnone, -, -⟩
    · rw [hb] at hb'
      cases hb'
    · rw [hb] at hb'
      cases hb'
      rw [hr]
      exact (BTreeSet.mem_insert_iff _ _ _).2 (Or.inl rfl)
    · exact absurd hb (hnone revocation)

/-! ## Every run -/

theorem revoked_of_run {rest : List LogEntry}
    (h : rest.foldlM (apply C) s = .ok s') (hd : device ∈ s.revokedDevices) :
    device ∈ s'.revokedDevices :=
  Run.foldlM_history (P := fun _ t => device ∈ t.revokedDevices) hd
    (fun _ _ _ _ _ hm happ => revokedDevices_subset happ hm) h

theorem not_authorized_after_revocation {pre rest : List LogEntry}
    {revocation : DeviceCertificateRevocation}
    (h : replay C (pre ++ e :: rest) = .ok s)
    (hbody : e.body = .deviceRevocation revocation) :
    s.deviceIsAuthorized revocation.device identity = false := by
  by_cases hpre : pre = []
  · -- a chain starts with its founding entry, which revokes nothing
    subst hpre
    obtain ⟨s₀, hgen, -⟩ := replay_cons.1 h
    have hfirst := (genesis_ok hgen).1
    rw [hbody] at hfirst
    cases hfirst
  · obtain ⟨m, -, hrun⟩ := (replay_append hpre).1 h
    obtain ⟨m', happ, hrest⟩ := Run.foldlM_ok_cons.1 hrun
    refine not_authorized_of_revoked (revoked_of_run hrest ?_)
    rcases mutate_devices (apply_ok happ).mutated with
      ⟨cert, hb, -⟩ | ⟨revocation', hb, -, hr⟩ | ⟨-, hnone, -, -⟩
    · rw [hbody] at hb
      cases hb
    · rw [hbody] at hb
      cases hb
      rw [hr]
      exact (BTreeSet.mem_insert_iff _ _ _).2 (Or.inl rfl)
    · exact absurd hbody (hnone revocation)

/-- An entry of another author leaves `identity`'s authority over `device` as
it was, unless `identity` had it and the entry is a record for the same
device key. And from an accepted revocation on, nobody has it. -/
theorem device_authority (C : Crypto) (device : DevicePublicKey)
    (identity : PerNetworkIdentityId) :
    (∀ (s : GovernanceState) (e : LogEntry) (s' : GovernanceState),
      s.apply C e = .ok s' → e.author ≠ identity →
      (s'.deviceIsAuthorized device identity =
          s.deviceIsAuthorized device identity ↔
        ¬ (s.deviceIsAuthorized device identity = true ∧
          e.body.RecordsDevice device))) ∧
    ∀ (pre : List LogEntry) (e : LogEntry) (rest : List LogEntry)
      (revocation : DeviceCertificateRevocation) (s : GovernanceState),
      replay C (pre ++ e :: rest) = .ok s →
      e.body = .deviceRevocation revocation → revocation.device = device →
      s.deviceIsAuthorized device identity = false := by
  constructor
  · intro s e s' h hauthor
    by_cases hrec : e.body.RecordsDevice device
    · rw [no_authority_of_records h hauthor hrec]
      cases s.deviceIsAuthorized device identity <;> simp [hrec]
    · simp [hrec, authority_of_not_records h hrec]
  · intro pre e rest revocation s h hbody hdevice
    rw [← hdevice]
    exact not_authorized_after_revocation h hbody

/-- Device `n`, certified by identity `owner`. -/
def sampleCertificate (owner n : ℕ) : DeviceCertificate :=
  ⟨Sample.network, Sample.identity owner, ⟨⟨Bytes.ofNat 32 n⟩⟩, "laptop", ⟨0⟩,
    Sample.signature owner 0⟩

/-- Identity 2 is admitted and enrolls device 9. -/
def enrolledChain : List LogEntry :=
  [Sample.genesis 0 NetworkPolicy.conservativeDefault [],
    Sample.entry 1 (some 0) 1 1 (Sample.admits 2),
    Sample.entry 2 (some 1) 2 2 (.deviceEnrollment (sampleCertificate 2 9))]

/-- The founder enrolls device `n` for itself. -/
def founderEnrolls (n : ℕ) : LogEntry :=
  Sample.entry 3 (some 2) 3 1 (.deviceEnrollment (sampleCertificate 1 n))

/-- A device key of the founder's own changes nothing for identity 2. -/
theorem device_authority_own_key :
    ∃ s s', replay .sample enrolledChain = .ok s ∧
      s.apply .sample (founderEnrolls 8) = .ok s' ∧
      s'.deviceIsAuthorized (sampleCertificate 2 9).device
          (Sample.identity 2) =
        s.deviceIsAuthorized (sampleCertificate 2 9).device
          (Sample.identity 2) := by
  have hcheck : Run.okAnd (replay .sample enrolledChain) (fun s =>
      Run.okAnd (s.apply .sample (founderEnrolls 8)) fun _ => true) = true := by
    decide +kernel
  obtain ⟨s, hs, hp⟩ := Run.okAnd_iff.1 hcheck
  obtain ⟨s', hs', -⟩ := Run.okAnd_iff.1 hp
  refine ⟨s, s', hs, hs', ?_⟩
  refine ((device_authority .sample (sampleCertificate 2 9).device
    (Sample.identity 2)).1 s _ s' hs' (by decide)).2 fun hgiven => ?_
  rcases hgiven.2 with ⟨cert, hb, hd⟩ | ⟨revocation, hb, -⟩
  · cases hb
    exact absurd hd (by decide)
  · cases hb

/-- The same key, enrolled by the founder, ends the authority of identity 2,
who revoked nothing. -/
theorem enrollment_takes_device :
    ∃ s s', replay .sample enrolledChain = .ok s ∧
      s.apply .sample (founderEnrolls 9) = .ok s' ∧
      (founderEnrolls 9).author ≠ Sample.identity 2 ∧
      s.deviceIsAuthorized (sampleCertificate 2 9).device
        (Sample.identity 2) = true ∧
      s'.deviceIsAuthorized (sampleCertificate 2 9).device
        (Sample.identity 2) = false := by
  have hcheck : Run.okAnd (replay .sample enrolledChain) (fun s =>
      s.deviceIsAuthorized (sampleCertificate 2 9).device
          (Sample.identity 2) &&
        Run.okAnd (s.apply .sample (founderEnrolls 9)) fun s' =>
          !s'.deviceIsAuthorized (sampleCertificate 2 9).device
            (Sample.identity 2)) = true := by
    decide +kernel
  obtain ⟨s, hs, hp⟩ := Run.okAnd_iff.1 hcheck
  obtain ⟨hbefore, hstep⟩ := Bool.and_eq_true_iff.1 hp
  obtain ⟨s', hs', hafter⟩ := Run.okAnd_iff.1 hstep
  exact ⟨s, s', hs, hs', by decide, hbefore, by simpa using hafter⟩

end GovernanceState

end Intranet
