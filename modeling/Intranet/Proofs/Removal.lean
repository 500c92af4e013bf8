import Intranet.Proofs.Replay
import Intranet.Ref.Sample

/-!
# Leaving a group

A removal naming its own author needs no capability, and it shares its
encoding and its effect with the gated removal, the cascade included. So a
departing member can attach a cascade, and the cascade takes out whoever the
member once added. The step lemma is about the first turn of the worklist:
it dooms nobody, and then the loop stops at once, or it dooms somebody, and
nothing later puts a member back.
-/

namespace Intranet

/-- Whether a cascade with this cutoff takes out a member that `remover`
added: always without a window, else from the cutoff on. -/
def MembershipRecord.DoomedBy (record : MembershipRecord)
    (cutoff : Option Timestamp) (remover : PerNetworkIdentityId) : Prop :=
  record.addedBy = some remover ∧
    ∀ c, cutoff = some c → c.millis ≤ record.addedAt.millis

/-- The cutoff a cascade's window sets, counted back from the removal. -/
def Cascade.cutoff (cascade : Cascade) (removedAt : Timestamp) :
    Option Timestamp :=
  cascade.windowMillis.map fun window => removedAt.plusMillis (-window)

namespace GovernanceState

variable {C : Crypto} {s s' : GovernanceState} {e : LogEntry}

/-- The record `identity` holds in the group stored under `g`. -/
def membership (s : GovernanceState) (g : GroupId)
    (identity : PerNetworkIdentityId) : Option MembershipRecord :=
  s.groups[g]?.bind fun group => group.members[identity]?

/-- The removal of `identity` from `g` carries a cascade, and the group has
another member that `identity` added inside the cascade's window. -/
def CascadeReaches (s : GovernanceState) (g : GroupId)
    (identity : PerNetworkIdentityId) (cascade : Option Cascade)
    (removedAt : Timestamp) : Prop :=
  ∃ c other record, cascade = some c ∧ other ≠ identity ∧
    s.membership g other = some record ∧
    record.DoomedBy (c.cutoff removedAt) identity

/-! ## One turn of the cascade -/

theorem mem_doomedBy {cutoff : Option Timestamp}
    {remover id : PerNetworkIdentityId}
    {members : BTreeMap PerNetworkIdentityId MembershipRecord} :
    id ∈ doomedBy cutoff remover members ↔
      ∃ record, members[id]? = some record ∧
        record.DoomedBy cutoff remover := by
  simp only [doomedBy, List.mem_map, List.mem_filter, Prod.exists,
    exists_and_right, exists_eq_right,
    Std.ExtTreeMap.mem_toList_iff_getElem?_eq_some, Bool.and_eq_true,
    decide_eq_true_eq, MembershipRecord.DoomedBy]
  cases cutoff <;> simp

theorem not_mem_eraseAll {ids : List PerNetworkIdentityId}
    {id : PerNetworkIdentityId} (hid : id ∈ ids)
    (members : BTreeMap PerNetworkIdentityId MembershipRecord) :
    id ∉ ids.foldl (fun m id => m.erase id) members := by
  induction ids generalizing members with
  | nil => cases hid
  | cons first rest ih =>
      rw [List.foldl_cons]
      rcases List.mem_cons.1 hid with rfl | hid
      · intro hin
        have hmem := eraseAll_subset rest _ hin
        simp at hmem
      · exact ih hid (members.erase first)

/-- Whoever the first turn dooms is out at the end. -/
theorem not_mem_cascadeLoop {cutoff : Option Timestamp} (fuel : ℕ)
    {remover id : PerNetworkIdentityId}
    {members : BTreeMap PerNetworkIdentityId MembershipRecord}
    (hid : id ∈ doomedBy cutoff remover members) :
    id ∉ cascadeLoop cutoff (fuel + 1) [remover] members := by
  intro hin
  exact not_mem_eraseAll hid members (cascadeLoop_subset _ _ _ _ hin)

/-- A first turn that dooms nobody is the last. -/
theorem cascadeLoop_of_doomedBy_nil {cutoff : Option Timestamp} {fuel : ℕ}
    {remover : PerNetworkIdentityId}
    {members : BTreeMap PerNetworkIdentityId MembershipRecord}
    (hnil : doomedBy cutoff remover members = []) :
    cascadeLoop cutoff (fuel + 1) [remover] members = members := by
  rw [cascadeLoop, hnil]
  cases fuel <;> rfl

/-! ## One removal -/

/-- What is left of a group after a removal. -/
def membersLeft (members : BTreeMap PerNetworkIdentityId MembershipRecord)
    (identity : PerNetworkIdentityId) (cascade : Option Cascade)
    (removedAt : Timestamp) : BTreeMap PerNetworkIdentityId MembershipRecord :=
  match cascade with
  | none => members.erase identity
  | some c => cascadeLoop (c.cutoff removedAt)
      ((members.erase identity).size + 1) [identity] (members.erase identity)

theorem removeMembership_left {g : GroupId} {identity : PerNetworkIdentityId}
    {cascade : Option Cascade} {removedAt : Timestamp}
    (h : s.removeMembership g identity cascade removedAt = .ok s') :
    ∃ group, s.groups[g]? = some group ∧
      s' = { s with groups := s.groups.insert g { group with
        members := membersLeft group.members identity cascade removedAt } } := by
  unfold removeMembership at h
  split at h
  · cases h
  · next group hgroup =>
      split at h
      · cases h
      · cases h
        refine ⟨group, hgroup, ?_⟩
        cases cascade <;> rfl

theorem membership_insert (g g' : GroupId) (group : Group)
    (members : BTreeMap PerNetworkIdentityId MembershipRecord)
    (id : PerNetworkIdentityId) :
    membership { s with
      groups := s.groups.insert g { group with members } } g' id =
      if g = g' then members[id]? else s.membership g' id := by
  simp only [membership, BTreeMap.getElem?_insert_ite]
  split <;> rfl

/-- What is left agrees with the group on everybody but `identity` exactly
when the cascade reaches nobody. -/
theorem membersLeft_frame_iff
    {members : BTreeMap PerNetworkIdentityId MembershipRecord}
    {identity : PerNetworkIdentityId} {cascade : Option Cascade}
    {removedAt : Timestamp} :
    (∀ id, id ≠ identity →
      (membersLeft members identity cascade removedAt)[id]? = members[id]?) ↔
      ¬ ∃ c other record, cascade = some c ∧ other ≠ identity ∧
        members[other]? = some record ∧
        record.DoomedBy (c.cutoff removedAt) identity := by
  have herase : ∀ id, id ≠ identity →
      (members.erase identity)[id]? = members[id]? := by
    intro id hid
    rw [BTreeMap.getElem?_erase_ite, if_neg (Ne.symm hid)]
  constructor
  · intro hframe hreach
    obtain ⟨c, other, record, rfl, hother, hrecord, hdoomed⟩ := hreach
    have hin : other ∈ doomedBy (c.cutoff removedAt) identity
        (members.erase identity) :=
      mem_doomedBy.2 ⟨record, by rw [herase other hother, hrecord], hdoomed⟩
    have hout := (BTreeMap.getElem?_eq_none_iff _ _).2
      (not_mem_cascadeLoop (members.erase identity).size hin)
    have hkept := hframe other hother
    rw [membersLeft, hout, hrecord] at hkept
    cases hkept
  · intro hreach id hid
    cases cascade with
    | none => exact herase id hid
    | some c =>
        have hnil : doomedBy (c.cutoff removedAt) identity
            (members.erase identity) = [] := by
          refine List.eq_nil_iff_forall_not_mem.2 fun other hin => ?_
          obtain ⟨record, hrecord, hdoomed⟩ := mem_doomedBy.1 hin
          rw [BTreeMap.getElem?_erase_ite] at hrecord
          split at hrecord
          · cases hrecord
          · next hne =>
              exact hreach ⟨c, other, record, rfl, Ne.symm hne, hrecord, hdoomed⟩
        rw [membersLeft, cascadeLoop_of_doomedBy_nil hnil, herase id hid]

/-- A self-removal leaves everybody else where they are, in every group,
exactly when its cascade reaches no member its author added. -/
theorem self_removal_frame_iff {g : GroupId} {cascade : Option Cascade}
    (h : s.apply C e = .ok s')
    (hbody : e.body = .membershipChange g e.author (.remove cascade)) :
    (∀ id, id ≠ e.author → ∀ g', s'.membership g' id = s.membership g' id) ↔
      ¬ s.CascadeReaches g e.author cascade e.timestamp := by
  have hmut := (apply_ok h).mutated
  rw [mutate, hbody] at hmut
  obtain ⟨group, hgroup, rfl⟩ := removeMembership_left hmut
  have hstored : ∀ id, s.membership g id = group.members[id]? := by
    intro id
    rw [membership, hgroup]
    rfl
  simp only [CascadeReaches, hstored, membership_insert]
  rw [← membersLeft_frame_iff]
  constructor
  · intro hframe id hid
    simpa [hstored] using hframe id hid g
  · intro hframe id hid g'
    split
    · next hg =>
        rw [← hg, hstored]
        exact hframe id hid
    · rfl

/-- Identity 2, while in a group that manages `everyone`, admits 3; then it
is taken out of that group again. -/
def formerManagerChain : List LogEntry :=
  [Sample.genesis 0 NetworkPolicy.conservativeDefault [],
    Sample.entry 1 (some 0) 1 1 (.defineGroup ⟨"crew"⟩ (.explicit
      (Std.ExtTreeSet.ofList [.manageMembership GroupId.everyone] compare))),
    Sample.entry 2 (some 1) 2 1
      (.membershipChange ⟨"crew"⟩ (Sample.identity 2) (.add none)),
    Sample.entry 3 (some 2) 3 1 (Sample.admits 2),
    Sample.entry 4 (some 3) 4 2 (Sample.admits 3),
    Sample.entry 5 (some 4) 5 1
      (.membershipChange ⟨"crew"⟩ (Sample.identity 2) (.remove none))]

/-- Identity 2 leaves `everyone`. -/
def departure (cascade : Option Cascade) : LogEntry :=
  Sample.entry 6 (some 5) 6 2
    (.membershipChange GroupId.everyone (Sample.identity 2) (.remove cascade))

/-- Without a cascade the departure moves nobody else. -/
theorem self_removal_frame_iff_plain :
    ∃ s s', replay .sample formerManagerChain = .ok s ∧
      s.apply .sample (departure none) = .ok s' ∧
      s.identityHolds (Sample.identity 2)
        (.manageMembership GroupId.everyone) = false ∧
      ∀ id, id ≠ Sample.identity 2 → ∀ g,
        s'.membership g id = s.membership g id := by
  have hcheck : Run.okAnd (replay .sample formerManagerChain) (fun s =>
      !s.identityHolds (Sample.identity 2)
          (.manageMembership GroupId.everyone) &&
        Run.okAnd (s.apply .sample (departure none)) fun _ => true) = true := by
    decide +kernel
  obtain ⟨s, hs, hp⟩ := Run.okAnd_iff.1 hcheck
  obtain ⟨hlacks, hstep⟩ := Bool.and_eq_true_iff.1 hp
  obtain ⟨s', hs', -⟩ := Run.okAnd_iff.1 hstep
  refine ⟨s, s', hs, hs', by simpa using hlacks, ?_⟩
  refine (self_removal_frame_iff hs' rfl).2 fun hreach => ?_
  obtain ⟨c, -, -, hc, -⟩ := hreach
  cases hc

/-- With one it takes 3 out of `everyone`, by an author who holds nothing. -/
theorem departure_removes_another :
    ∃ s s', replay .sample formerManagerChain = .ok s ∧
      s.apply .sample (departure (some ⟨none⟩)) = .ok s' ∧
      s.identityHolds (Sample.identity 2)
        (.manageMembership GroupId.everyone) = false ∧
      s.inGroup GroupId.everyone (Sample.identity 3) = true ∧
      s'.inGroup GroupId.everyone (Sample.identity 3) = false := by
  have hcheck : Run.okAnd (replay .sample formerManagerChain) (fun s =>
      !s.identityHolds (Sample.identity 2)
          (.manageMembership GroupId.everyone) &&
        (s.inGroup GroupId.everyone (Sample.identity 3) &&
        Run.okAnd (s.apply .sample (departure (some ⟨none⟩))) fun s' =>
          !s'.inGroup GroupId.everyone (Sample.identity 3))) = true := by
    decide +kernel
  obtain ⟨s, hs, hp⟩ := Run.okAnd_iff.1 hcheck
  obtain ⟨hlacks, hp⟩ := Bool.and_eq_true_iff.1 hp
  obtain ⟨hin, hstep⟩ := Bool.and_eq_true_iff.1 hp
  obtain ⟨s', hs', hout⟩ := Run.okAnd_iff.1 hstep
  exact ⟨s, s', hs, hs', by simpa using hlacks, hin, by simpa using hout⟩

end GovernanceState

end Intranet
