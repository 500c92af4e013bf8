import Intranet.Proofs.Object
import Intranet.Proofs.PointerSync

/-!
# Which wrappings still open

Whether a wrapping is usable shows only when someone with the epoch key opens
it, so a node stores what any member signed. It stores it in one place for
each pointer and rotation, and that is where the comment on
`accept_wrapping`, that an unusable wrapping "costs a little space", goes
wrong: it costs the wrapping that was there. A reader is locked out by
exactly the wrappings that are admitted, are for the same place and do not
open themselves (`wrapping_survives_iff`), and let back in by any honest
re-wrap (`opens_of_create`).
-/

namespace Intranet

variable {C : Crypto} {A : Aead}

/-- What a member wraps opens under the same epoch to the same key. -/
theorem DekWrapping.unwrap_create {validKey : Bytes 32 → Bool}
    (hA : A.Lawful) (wrapper : PerNetworkIdentity C validKey)
    (pointerId : PointerId) (dek : Dek) (epochKey : EpochKey)
    (rotationRef : Hash) :
    (DekWrapping.create A wrapper pointerId dek epochKey rotationRef).unwrap C A
      epochKey (dek.commitment C) = .ok dek := by
  have hsigned : (DekWrapping.create A wrapper pointerId dek epochKey
      rotationRef).verifySignature C = .ok () := by
    rw [DekWrapping.verifySignature, if_pos]
    exact wrapper.verifies _
  have hdek : epochKey.unwrapDek A pointerId (epochKey.wrap A pointerId dek) =
      .ok dek := by
    rw [EpochKey.unwrapDek, EpochKey.wrap, hA.openDeterministic_seal]
    exact dif_pos dek.bytes.length_eq
  rw [DekWrapping.unwrap, hsigned]
  refine Run.bind_ok.2 ⟨(), rfl, Run.bind_ok.2 ⟨dek, hdek, ?_⟩⟩
  rw [if_neg (not_not.2 rfl)]
  rfl

namespace PointerNode

variable {node : PointerNode} {p : MutablePointer} {rotation : Hash}
  {epochKey : EpochKey} {w : DekWrapping}

/-- A holder of the epoch key reads `p`: the wrapping held for it under
`rotation` opens to the committed key. -/
def Opens (C : Crypto) (A : Aead) (node : PointerNode) (p : MutablePointer)
    (rotation : Hash) (epochKey : EpochKey) : Prop :=
  ∃ w, node.wrappingUnder p.pointerId rotation = some w ∧
    ∃ dek, w.unwrap C A epochKey p.dekCommitment = .ok dek

/-- An accepted wrapping replaces the one held for its pointer and rotation,
whichever of the two can be opened. So a readable object stays readable if
and only if the new wrapping is refused, is for another pointer or rotation,
or opens itself to the committed key. -/
theorem wrapping_survives_iff (h : node.Opens C A p rotation epochKey) :
    (node.acceptWrapping C w).2.Opens C A p rotation epochKey ↔
      ¬ (w.verifySignature C = .ok () ∧
          (∃ state, node.governanceState C = some state ∧
            state.isMember w.wrapperIdentity = true)) ∨
        ¬ (w.pointerId = p.pointerId ∧ w.rotationRef = rotation) ∨
        ∃ dek, w.unwrap C A epochKey p.dekCommitment = .ok dek := by
  by_cases hadmits : node.Admits C w
  · rw [Opens, wrappingUnder_of_admits hadmits]
    by_cases hplace : w.pointerId = p.pointerId ∧ w.rotationRef = rotation
    · rw [if_pos hplace]
      constructor
      · intro hopens
        obtain ⟨v, hv, hunwrap⟩ := hopens
        cases hv
        exact .inr (.inr hunwrap)
      · intro hcases
        rcases hcases with hnot | hnot | hunwrap
        · exact absurd hadmits hnot
        · exact absurd hplace hnot
        · exact ⟨w, rfl, hunwrap⟩
    · rw [if_neg hplace]
      exact iff_of_true h (.inr (.inl hplace))
  · rw [acceptWrapping_of_not_admits hadmits]
    exact iff_of_true h (.inl hadmits)

/-- An honest re-wrap opens whatever was stored before it. -/
theorem opens_of_create {validKey : Bytes 32 → Bool} (hA : A.Lawful)
    {wrapper : PerNetworkIdentity C validKey} {state : GovernanceState}
    (hstate : node.governanceState C = some state)
    (hmember : state.isMember wrapper.id = true) {dek : Dek}
    (hdek : dek.commitment C = p.dekCommitment) :
    (node.acceptWrapping C (DekWrapping.create A wrapper p.pointerId dek
      epochKey rotation)).2.Opens C A p rotation epochKey := by
  have hopens := DekWrapping.unwrap_create hA wrapper p.pointerId dek epochKey
    rotation
  have hsigned : (DekWrapping.create A wrapper p.pointerId dek epochKey
      rotation).verifySignature C = .ok () := (Run.bind_ok.1 hopens).choose_spec.1
  refine ⟨_, ?_, dek, hdek ▸ hopens⟩
  rw [wrappingUnder_of_admits ⟨hsigned, state, hstate, hmember⟩]
  exact if_pos ⟨rfl, rfl⟩

/-- The key of pointer 9, its commitment being the owner's number. -/
def ownerDek : Dek := ⟨Bytes.ofNat 32 1⟩

/-- The epoch key of the rotation with hash 0. -/
def epochZero : EpochKey := ⟨Bytes.replicate 32 5⟩

/-- A node with a wrapping its readers can open. -/
def readable : PointerNode :=
  (Sample.holder.acceptWrapping .sample (DekWrapping.create Sample.aead
    (Sample.keyPair 1) (Sample.pointer 9 1 0 3).pointerId ownerDek
    epochZero (Sample.hash 0))).2

theorem readable_opens : readable.Opens .sample Sample.aead
    (Sample.pointer 9 1 0 3) (Sample.hash 0) epochZero := by
  have hmember : (Sample.holder.governanceState .sample).any (fun state =>
      state.isMember (Sample.keyPair 1).id) = true := by decide +kernel
  obtain ⟨state, hstate, hmember⟩ := Option.any_eq_true _ _ |>.1 hmember
  exact opens_of_create Sample.aead_lawful hstate hmember (by decide +kernel)

/-- A wrapping for another pointer does not get in the way. -/
theorem wrapping_survives_iff_elsewhere :
    (readable.acceptWrapping .sample (Sample.wrapping 8 2)).2.Opens
      .sample Sample.aead (Sample.pointer 9 1 0 3) (Sample.hash 0)
      epochZero :=
  (wrapping_survives_iff readable_opens).2 (.inr (.inl (by decide +kernel)))

/-- A member's wrapping of nothing takes the place of the one that opens. -/
theorem wrapping_locks_out :
    readable.Opens .sample Sample.aead (Sample.pointer 9 1 0 3)
        (Sample.hash 0) epochZero ∧
      (∃ state, readable.governanceState .sample = some state ∧
        state.isMember (Sample.wrapping 9 2).wrapperIdentity = true) ∧
      ¬ (readable.acceptWrapping .sample (Sample.wrapping 9 2)).2.Opens
        .sample Sample.aead (Sample.pointer 9 1 0 3) (Sample.hash 0)
        epochZero := by
  have hmember : (readable.governanceState .sample).any (fun state =>
      state.isMember (Sample.wrapping 9 2).wrapperIdentity) = true := by
    decide +kernel
  refine ⟨readable_opens, Option.any_eq_true _ _ |>.1 hmember, fun hopens => ?_⟩
  obtain ⟨w, hw, dek, hdek⟩ := hopens
  have hheld : (readable.acceptWrapping .sample
      (Sample.wrapping 9 2)).2.wrappingUnder (Sample.pointer 9 1 0 3).pointerId
      (Sample.hash 0) = some (Sample.wrapping 9 2) := by
    decide +kernel
  have hclosed : Run.okAnd ((Sample.wrapping 9 2).unwrap .sample Sample.aead
      epochZero (Sample.pointer 9 1 0 3).dekCommitment) (fun _ => true) =
      false := by
    decide +kernel
  rw [hheld] at hw
  cases hw
  rw [hdek] at hclosed
  cases hclosed

end PointerNode

end Intranet
