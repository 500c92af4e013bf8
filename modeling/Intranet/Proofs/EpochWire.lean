import Intranet.Proofs.Dec
import Intranet.Proofs.Object
import Intranet.Proofs.StorageWire
import Intranet.Ref.EpochWire

/-!
# Key delivery arrives whole

A sealed key opens under the same secret, for the rotation it was sealed for,
and the two ends of a delivery agree on the secret. On the wire a Welcome is
read back within the decoder's two ceilings.
-/

namespace Intranet

open Reader

/-! ## Sealed keys -/

section Seal

variable {C : Crypto} {A : Aead} {validKey : Bytes 32 → Bool}
  {dh : DiffieHellman} {sealing : Bytes 32} {rotationRef : Hash}
  {plaintext : List UInt8} {sender recipient : PerNetworkIdentityId}

theorem EpochSeal.length_sealKey (hA : A.Lawful) :
    (sealKey A sealing rotationRef plaintext).length =
      plaintext.length + 40 := by
  simp only [sealKey, List.length_append, Bytes.length_eq, hA.length_encrypt]
  omega

theorem EpochSeal.openKey_sealKey (hA : A.Lawful) :
    openKey A sealing rotationRef (sealKey A sealing rotationRef plaintext) =
      .ok plaintext := by
  have hlen : ¬ (sealKey A sealing rotationRef plaintext).length ≤ 24 := by
    rw [length_sealKey hA]
    omega
  have hdrop : ∀ body : List UInt8, ((EpochSeal.nonce A sealing rotationRef
      plaintext).toList ++ body).drop 24 = body := fun body =>
    List.drop_left' (Bytes.length_eq _)
  simp only [sealKey] at hlen ⊢
  simp only [openKey, hlen, ↓reduceDIte, Bytes.ofTake_append, hdrop,
    hA.decrypt_encrypt, ne_eq, not_true_eq_false, ↓reduceIte]

theorem openSealed_sealKey (hA : A.Lawful) (key : Hash × EpochKey) :
    openSealed A sealing ⟨key.1,
      EpochSeal.sealKey A sealing key.1 key.2.bytes.toList⟩ = .ok key := by
  have hlen : key.2.bytes.toList.length = 32 := Bytes.length_eq _
  simp only [openSealed, EpochSeal.openKey_sealKey hA, hlen, ↓reduceDIte]

theorem mapM_openSealed (hA : A.Lawful) (keys : List (Hash × EpochKey)) :
    (keys.map fun k => (⟨k.1, EpochSeal.sealKey A sealing k.1
      k.2.bytes.toList⟩ : SealedEpochKey)).mapM (openSealed A sealing) =
        .ok keys := by
  induction keys with
  | nil => rfl
  | cons key keys ih =>
      rw [List.map_cons, List.mapM_cons, openSealed_sealKey hA, ih]
      rfl

/-- The recipient opens what was sealed, in the same order. -/
theorem openHistory_sealHistory (hA : A.Lawful)
    (hdh : ∀ a b, dh a b = dh b a) (hvalid : validKey sender.key.bytes = true)
    {keys : List (Hash × EpochKey)} {history : List SealedEpochKey}
    (h : sealHistory C A validKey dh sender recipient keys = .ok history) :
    openHistory C A validKey dh recipient sender history = .ok keys := by
  unfold sealHistory agree at h
  unfold openHistory agree
  rw [if_pos hvalid, hdh recipient sender]
  split at h
  · cases h
  · next secret hsecret =>
    split at hsecret
    · cases hsecret
      cases h
      exact mapM_openSealed hA keys
    · cases hsecret

theorem sealHistory_blob (hA : A.Lawful) {keys : List (Hash × EpochKey)}
    {history : List SealedEpochKey}
    (h : sealHistory C A validKey dh sender recipient keys = .ok history) :
    history.length = keys.length ∧
      ∀ entry ∈ history, entry.blob.length = 72 := by
  unfold sealHistory at h
  split at h
  · cases h
  · cases h
    refine ⟨List.length_map _, fun entry hentry => ?_⟩
    obtain ⟨key, -, rfl⟩ := List.mem_map.1 hentry
    rw [EpochSeal.length_sealKey hA, Bytes.length_eq]

end Seal

/-! ## On the wire -/

namespace EpochKeyResponse

theorem getSealed_reads (entry : SealedEpochKey) :
    Reads getSealed (putSealed entry) entry :=
  Reads.bind (Dec.fixed_reads entry.rotationRef.bytes)
    (Reads.map (Dec.bytes_reads entry.blob))

theorem putSealed_ne_nil (entry : SealedEpochKey) : putSealed entry ≠ [] :=
  List.append_ne_nil_of_left_ne_nil (Enc.fixed_ne_nil _) _

theorem bounded_reads {what : String} {limit : ℕ} {bytes : List UInt8}
    (h : bytes.length ≤ limit) :
    Reads (bounded what limit) (Enc.bytes bytes) bytes :=
  Reads.andThen (Dec.bytes_reads bytes)
    (Reads.step (Reads.check h) (Reads.pure bytes))

theorem getWelcome_reads {bytes : List UInt8} {rotationRef : Hash}
    {history : List SealedEpochKey} (hwelcome : bytes.length ≤ maxWelcomeBytes)
    (hhistory : history.length ≤ maxHistoryKeys) :
    Reads getWelcome (Enc.bytes bytes ++ Enc.fixed rotationRef.bytes ++
      Enc.seq history putSealed) (.welcome bytes rotationRef history) := by
  rw [List.append_assoc]
  refine Reads.bind (bounded_reads hwelcome) ?_
  refine Reads.bind (Dec.fixed_reads rotationRef.bytes) ?_
  refine Reads.andThen (Dec.seq_reads putSealed_ne_nil fun entry _ =>
    getSealed_reads entry) ?_
  exact Reads.step (Reads.check hhistory) (Reads.pure _)

theorem getRefusal_reads (reason : KeyDeliveryRefusal) :
    Reads getRefusal (Enc.u8 reason.code) reason := by
  cases reason <;> exact Dec.variant_pure_reads rfl

/-- Within the decoder's two ceilings. -/
def Bounded : EpochKeyResponse → Prop
  | welcome bytes _ history =>
      bytes.length ≤ maxWelcomeBytes ∧ history.length ≤ maxHistoryKeys
  | refused _ => True

theorem get_reads {r : EpochKeyResponse} (h : r.Bounded) :
    Reads get r.put r := by
  cases r with
  | welcome bytes rotationRef history =>
      obtain ⟨hwelcome, hhistory⟩ := h
      have hget : Reads getWelcome (Enc.bytes bytes ++
          Enc.fixed rotationRef.bytes ++ Enc.seq history putSealed)
            (.welcome bytes rotationRef history) :=
        getWelcome_reads hwelcome hhistory
      rw [List.append_assoc] at hget
      simp only [put, List.append_assoc]
      exact Dec.variant_reads (d := 0) hget
  | refused reason =>
      exact Dec.variant_reads (d := 1) (Reads.map (getRefusal_reads reason))

/-! ### What the readers accept -/

section Accepted

variable {i rest : List UInt8}

theorem getSealed_ok {entry : SealedEpochKey}
    (h : getSealed i = .ok (entry, rest)) : i = putSealed entry ++ rest := by
  obtain ⟨rotationRef, mid, hrotation, h⟩ := bind_ok.1 h
  obtain ⟨blob, mid', hblob, h⟩ := bind_ok.1 h
  obtain ⟨rfl, rfl⟩ := pure_ok.1 h
  rw [Dec.fixed_ok.1 hrotation, Dec.bytes_ok hblob, putSealed,
    List.append_assoc]

theorem bounded_ok {what : String} {limit : ℕ} {bytes : List UInt8}
    (h : bounded what limit i = .ok (bytes, rest)) :
    i = Enc.bytes bytes ++ rest := by
  obtain ⟨b, mid, hb, h⟩ := bind_ok.1 h
  obtain ⟨u, mid', hcheck, h⟩ := bind_ok.1 h
  obtain ⟨-, rfl⟩ := check_ok.1 hcheck
  obtain ⟨rfl, rfl⟩ := pure_ok.1 h
  exact Dec.bytes_ok hb

theorem getWelcome_ok {r : EpochKeyResponse}
    (h : getWelcome i = .ok (r, rest)) :
    Enc.variant 0 ++ i = r.put ++ rest := by
  obtain ⟨bytes, mid₁, hbytes, h⟩ := bind_ok.1 h
  obtain ⟨rotationRef, mid₂, hrotation, h⟩ := bind_ok.1 h
  obtain ⟨history, mid₃, hhistory, h⟩ := bind_ok.1 h
  obtain ⟨u, mid₄, hcheck, h⟩ := bind_ok.1 h
  obtain ⟨-, rfl⟩ := check_ok.1 hcheck
  obtain ⟨rfl, rfl⟩ := pure_ok.1 h
  have hseq := (Dec.seq_ok (P := fun _ => True) (E := True)
    (fun hentry => ⟨trivial, fun _ => getSealed_ok hentry⟩) hhistory).2 trivial
  rw [bounded_ok hbytes, Dec.fixed_ok.1 hrotation, hseq, put]
  simp only [List.append_assoc]

theorem getRefusal_ok {reason : KeyDeliveryRefusal}
    (h : getRefusal i = .ok (reason, rest)) :
    i = Enc.u8 reason.code ++ rest := by
  obtain ⟨d, mid, hd, h⟩ := bind_ok.1 h
  rw [Dec.u8_ok.1 hd]
  split at h
  · obtain ⟨rfl, rfl⟩ := pure_ok.1 h
    rfl
  · obtain ⟨rfl, rfl⟩ := pure_ok.1 h
    rfl
  · obtain ⟨rfl, rfl⟩ := pure_ok.1 h
    rfl
  · obtain ⟨rfl, rfl⟩ := pure_ok.1 h
    rfl
  · exact (throw_ok.1 h).elim

theorem get_ok {r : EpochKeyResponse} (h : get i = .ok (r, rest)) :
    i = r.put ++ rest := by
  obtain ⟨d, mid, hd, h⟩ := bind_ok.1 h
  rw [Dec.variant_ok.1 hd]
  split at h
  · exact getWelcome_ok h
  · obtain ⟨reason, mid', hreason, h⟩ := bind_ok.1 h
    obtain ⟨rfl, rfl⟩ := pure_ok.1 h
    rw [getRefusal_ok hreason, put, List.append_assoc]
  · exact (throw_ok.1 h).elim

end Accepted

/-! ### A Welcome with its history -/

theorem length_putSealed (entry : SealedEpochKey) :
    (putSealed entry).length = 40 + entry.blob.length := by
  simp only [putSealed, Enc.fixed, Enc.bytes, Enc.u64, List.length_append,
    Enc.length_bigEndian, Bytes.length_eq]
  omega

/-- History keys have one size on the wire. -/
theorem length_history {history : List SealedEpochKey}
    (hblob : ∀ entry ∈ history, entry.blob.length = 72) :
    (Enc.seq history putSealed).length = 8 + history.length * 112 := by
  have hitems : (history.flatMap putSealed).length = history.length * 112 := by
    induction history with
    | nil => rfl
    | cons entry history ih =>
        rw [List.flatMap_cons, List.length_append, length_putSealed,
          hblob entry List.mem_cons_self,
          ih fun e he => hblob e (List.mem_cons_of_mem entry he),
          List.length_cons]
        omega
  rw [Enc.seq, List.length_append, hitems, Enc.u64, Enc.length_bigEndian]

/-- A Welcome within the ceilings is read back as it was written. -/
theorem decode_encode_welcome {bytes : List UInt8} {rotationRef : Hash}
    {history : List SealedEpochKey} (hwelcome : bytes.length ≤ maxWelcomeBytes)
    (hhistory : history.length ≤ maxHistoryKeys)
    (hblob : ∀ entry ∈ history, entry.blob.length = 72) :
    decode (encode (.welcome bytes rotationRef history)) =
      .ok (.welcome bytes rotationRef history) := by
  have hreads := get_reads (r := .welcome bytes rotationRef history)
    ⟨hwelcome, hhistory⟩
  refine Dec.framed_reads hreads (Reads.pure _) ?_
  have hdomain : (Enc.domain wireDomain).length = 43 := by decide +kernel
  simp only [put, List.length_append, hdomain, length_history hblob,
    Enc.variant, Enc.u8, Enc.bytes, Enc.fixed, Enc.u64, Enc.length_bigEndian,
    Bytes.length_eq, List.length_singleton]
  unfold maxWelcomeBytes at hwelcome
  unfold maxHistoryKeys at hhistory
  omega

end EpochKeyResponse

end Intranet
