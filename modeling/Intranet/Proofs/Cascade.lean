import Intranet.Lib.Worklist
import Intranet.Proofs.Removal

/-!
# A cascade takes out the provenance closure

`remove_membership` deletes while it scans, over an added-by graph that may
have any shape. What it leaves is described without the loop: the members
outside the least set that contains the removed identity and everybody a
member of the set added inside the window (`cascade_exact`). The loop is the
one of `Lib/Worklist.lean`.

The window is counted back from the removal with an addition that saturates.
Where the cutoff would lie after the last `i64`, it is the last `i64`, and a
membership dated there is inside a window it would be outside of by the
integers (`cascade_saturates`).
-/

namespace Intranet

/-- The nearest value an `i64` can hold. -/
def clampI64 (x : ℤ) : ℤ := max (-2 ^ 63) (min (2 ^ 63 - 1) x)

/-- The least set with `identity` in it and with everybody a member of it
added whose record is in the window. -/
inductive Provenance
    (members : BTreeMap PerNetworkIdentityId MembershipRecord)
    (inWindow : MembershipRecord → Prop) (identity : PerNetworkIdentityId) :
    PerNetworkIdentityId → Prop where
  | self : Provenance members inWindow identity identity
  | added {adder member : PerNetworkIdentityId} {record : MembershipRecord} :
      Provenance members inWindow identity adder →
      members[member]? = some record → record.addedBy = some adder →
      inWindow record → Provenance members inWindow identity member

/-- A record of the removal's window, which reaches back from the removal and
saturates at the bounds of an `i64`. -/
def Cascade.InWindow (cascade : Cascade) (removedAt : Timestamp)
    (record : MembershipRecord) : Prop :=
  ∀ window, cascade.windowMillis = some window →
    clampI64 (removedAt.millis.toInt - window.toInt) ≤
      record.addedAt.millis.toInt

theorem Timestamp.plusMillis_toInt (t : Timestamp) (millis : Int64) :
    (t.plusMillis millis).millis.toInt =
      clampI64 (t.millis.toInt + millis.toInt) := by
  rw [Timestamp.plusMillis, clampI64]
  refine Int64.toInt_ofInt_of_le (le_max_left _ _) ?_
  exact max_lt (by decide) (Int.lt_of_le_sub_one (min_le_left _ _))

theorem toInt_neg_of_ne {window : Int64} (h : window ≠ Int64.minValue) :
    (-window).toInt = -window.toInt := by
  have hlt := window.toInt_lt
  have hne : window.toInt ≠ -2 ^ 63 := fun heq => h (Int64.toInt_inj.1 heq)
  have hle := window.le_toInt
  rw [Int64.toInt_neg]
  exact Int.bmod_eq_of_le (by omega) (by omega)

/-- The cutoff the code computes bounds exactly the window. -/
theorem Cascade.inWindow_iff {cascade : Cascade} {removedAt : Timestamp}
    {record : MembershipRecord}
    (hwindow : cascade.windowMillis ≠ some Int64.minValue) :
    (∀ c, cascade.cutoff removedAt = some c →
        c.millis ≤ record.addedAt.millis) ↔
      cascade.InWindow removedAt record := by
  rw [Cascade.cutoff, Cascade.InWindow]
  cases hw : cascade.windowMillis with
  | none =>
      refine iff_of_true (fun c hc => ?_) (fun window h => ?_)
      · cases hc
      · cases h
  | some window =>
      have hne : window ≠ Int64.minValue := fun h => hwindow (h ▸ hw)
      simp only [Option.map_some, Option.some.injEq, forall_eq']
      rw [Int64.le_iff_toInt_le, Timestamp.plusMillis_toInt,
        toInt_neg_of_ne hne, ← sub_eq_add_neg]

namespace GovernanceState

variable {s : GovernanceState} {g : GroupId} {group : Group}
  {identity : PerNetworkIdentityId} {cascade : Cascade} {removedAt : Timestamp}

/-! ## The loop as the one of the library -/

/-- Whether a scan for what `remover` added takes out a record. -/
def doomEdge (cutoff : Option Timestamp) (remover : PerNetworkIdentityId)
    (record : MembershipRecord) : Bool :=
  decide (record.addedBy = some remover) &&
    (match cutoff with
      | none => true
      | some cutoff => decide (cutoff.millis ≤ record.addedAt.millis))

theorem doomEdge_iff {cutoff : Option Timestamp}
    {remover : PerNetworkIdentityId} {record : MembershipRecord} :
    doomEdge cutoff remover record = true ↔ record.DoomedBy cutoff remover := by
  cases cutoff <;> simp [doomEdge, MembershipRecord.DoomedBy]

theorem cascadeLoop_eq (cutoff : Option Timestamp) (fuel : ℕ)
    (pending : List PerNetworkIdentityId)
    (members : BTreeMap PerNetworkIdentityId MembershipRecord) :
    cascadeLoop cutoff fuel pending members =
      Worklist.loop (doomEdge cutoff) fuel pending members := by
  induction fuel generalizing pending members with
  | zero => rfl
  | succ fuel ih =>
      cases pending with
      | nil => rfl
      | cons remover pending => exact ih _ _

/-- What the loop reaches from `identity` is the closure, `identity` itself
apart. -/
theorem provenance_iff {members : BTreeMap PerNetworkIdentityId MembershipRecord}
    (hwindow : cascade.windowMillis ≠ some Int64.minValue)
    {id : PerNetworkIdentityId} :
    Provenance members (cascade.InWindow removedAt) identity id ↔
      id = identity ∨ Worklist.Reached (doomEdge (cascade.cutoff removedAt))
        [identity] (members.erase identity) id := by
  have hedge : ∀ adder (record : MembershipRecord),
      doomEdge (cascade.cutoff removedAt) adder record = true ↔
        record.addedBy = some adder ∧ cascade.InWindow removedAt record := by
    intro adder record
    rw [doomEdge_iff, MembershipRecord.DoomedBy, Cascade.inWindow_iff hwindow]
  have hkept : ∀ {m : PerNetworkIdentityId} {record : MembershipRecord},
      (members.erase identity)[m]? = some record →
        members[m]? = some record := by
    intro m record hm
    rw [BTreeMap.getElem?_erase_ite] at hm
    split at hm
    · cases hm
    · exact hm
  constructor
  · intro h
    induction h with
    | self => exact Or.inl rfl
    | @added adder m record _ hm hadded hin ih =>
        by_cases hself : m = identity
        · exact Or.inl hself
        · have hm' : (members.erase identity)[m]? = some record := by
            rw [BTreeMap.getElem?_erase_ite, if_neg (Ne.symm hself), hm]
          have hdoom := (hedge adder record).2 ⟨hadded, hin⟩
          rcases ih with rfl | hreach
          · exact Or.inr (.first List.mem_cons_self hm' hdoom)
          · exact Or.inr (.next hreach hm' hdoom)
  · rintro (rfl | h)
    · exact .self
    · induction h with
      | @first p m record hp hm hdoom =>
          rw [List.mem_singleton.1 hp] at hdoom
          obtain ⟨hadded, hin⟩ := (hedge _ record).1 hdoom
          exact .added .self (hkept hm) hadded hin
      | @next p m record _ hm hdoom ih =>
          obtain ⟨hadded, hin⟩ := (hedge _ record).1 hdoom
          exact .added ih (hkept hm) hadded hin

/-! ## One removal -/

theorem membersLeft_exact
    {members : BTreeMap PerNetworkIdentityId MembershipRecord}
    (hwindow : cascade.windowMillis ≠ some Int64.minValue)
    (id : PerNetworkIdentityId) :
    (Provenance members (cascade.InWindow removedAt) identity id →
      (membersLeft members identity (some cascade) removedAt)[id]? = none) ∧
    (¬ Provenance members (cascade.InWindow removedAt) identity id →
      (membersLeft members identity (some cascade) removedAt)[id]? =
        members[id]?) := by
  have hruns : Worklist.Runs (doomEdge (cascade.cutoff removedAt)) [identity]
      (members.erase identity)
      (membersLeft members identity (some cascade) removedAt) := by
    rw [membersLeft, cascadeLoop_eq]
    refine Worklist.runs ?_
    rw [List.length_singleton, Nat.add_comm]
  obtain ⟨hgone, hkept⟩ := hruns.getElem?_eq id
  rw [provenance_iff hwindow]
  constructor
  · rintro (rfl | hreach)
    · -- the identity went first, and nothing puts it back
      by_cases hreach : Worklist.Reached (doomEdge (cascade.cutoff removedAt))
          [id] (members.erase id) id
      · exact hgone hreach
      · rw [hkept hreach, BTreeMap.getElem?_erase_ite, if_pos rfl]
    · exact hgone hreach
  · intro hout
    obtain ⟨hne, hreach⟩ := not_or.1 hout
    rw [hkept hreach, BTreeMap.getElem?_erase_ite, if_neg (Ne.symm hne)]

/-- A cascading removal computes exactly the provenance closure. The worklist
runs dry; the members left are those outside the closure of the removed
identity, each with the record it had; nothing but the group's members
changes. Where the identity is no member, the removal is refused as such. -/
theorem cascade_exact (hgroup : s.groups[g]? = some group)
    (hwindow : cascade.windowMillis ≠ some Int64.minValue) :
    (identity ∈ group.members →
      ∃ members, s.removeMembership g identity (some cascade) removedAt =
          .ok { s with groups := s.groups.insert g { group with members } } ∧
        Worklist.Runs (doomEdge (cascade.cutoff removedAt)) [identity]
          (group.members.erase identity) members ∧
        ∀ id,
          (Provenance group.members (cascade.InWindow removedAt) identity id →
            members[id]? = none) ∧
          (¬ Provenance group.members (cascade.InWindow removedAt) identity id →
            members[id]? = group.members[id]?)) ∧
    (identity ∉ group.members →
      s.removeMembership g identity (some cascade) removedAt =
        .error (.notInGroup identity.short g)) := by
  constructor
  · intro hmember
    refine ⟨membersLeft group.members identity (some cascade) removedAt,
      ?_, ?_, membersLeft_exact hwindow⟩
    · rw [removeMembership, hgroup]
      dsimp only
      rw [if_neg (by simpa using hmember)]
      rfl
    · rw [membersLeft, cascadeLoop_eq]
      refine Worklist.runs ?_
      rw [List.length_singleton, Nat.add_comm]
  · intro hmember
    rw [removeMembership, hgroup]
    dsimp only
    rw [if_pos (by rwa [Bool.not_eq_true', ← Bool.not_eq_true,
      Std.ExtTreeMap.contains_iff_mem])]

/-- Identity 1 adds 2 to the founders at the last moment there is. -/
def lastMoment : List LogEntry :=
  [Sample.genesis 0 .conservativeDefault [],
    Sample.entry 1 (some 0) Int64.maxValue 1
      (.membershipChange GroupId.founders (Sample.identity 2) (.add none))]

/-- The founders then. -/
def lastFounders : Group :=
  { Group.new GroupId.founders .all with
    members := ((∅ : BTreeMap PerNetworkIdentityId MembershipRecord).insert
      (Sample.identity 1) ⟨none, ⟨0⟩, none⟩).insert (Sample.identity 2)
        ⟨some (Sample.identity 1), ⟨Int64.maxValue⟩, none⟩ }

theorem replay_lastMoment : ∃ s, replay .sample lastMoment = .ok s ∧
    s.groups[GroupId.founders]? = some lastFounders := by
  have hcheck : Run.okAnd (replay .sample lastMoment) (fun s =>
      decide (s.groups[GroupId.founders]? = some lastFounders)) = true := by
    decide +kernel
  obtain ⟨s, hs, hgroup⟩ := Run.okAnd_iff.1 hcheck
  exact ⟨s, hs, of_decide_eq_true hgroup⟩

/-- A cascade without a window takes 2 out with 1. -/
theorem cascade_exact_founders : ∃ s members,
    replay .sample lastMoment = .ok s ∧
      s.removeMembership GroupId.founders (Sample.identity 1) (some ⟨none⟩)
        ⟨0⟩ = .ok { s with
          groups := s.groups.insert GroupId.founders
            { lastFounders with members } } ∧
      members[Sample.identity 2]? = none := by
  obtain ⟨s, hs, hgroup⟩ := replay_lastMoment
  obtain ⟨members, hok, -, hleft⟩ := (@cascade_exact s GroupId.founders
    lastFounders (Sample.identity 1) ⟨none⟩ ⟨0⟩ hgroup nofun).1
      (by decide +kernel)
  refine ⟨s, members, hs, hok, (hleft _).1 ?_⟩
  refine @Provenance.added _ _ _ _ _
    ⟨some (Sample.identity 1), ⟨Int64.maxValue⟩, none⟩ .self
    (by decide +kernel) rfl ?_
  intro window hwindow
  cases hwindow

/-- Where the cutoff lies past the last `i64`, the code takes out a member
who is outside the window by the integers. -/
theorem cascade_saturates : ¬ ∀ (s : GovernanceState) (group : Group)
    (window : Int64) (removedAt : Timestamp)
    (members : BTreeMap PerNetworkIdentityId MembershipRecord)
    (id : PerNetworkIdentityId),
    s.groups[GroupId.founders]? = some group → window ≠ Int64.minValue →
    s.removeMembership GroupId.founders (Sample.identity 1)
      (some ⟨some window⟩) removedAt = .ok { s with
        groups := s.groups.insert GroupId.founders { group with members } } →
    ¬ Provenance group.members (fun record =>
        removedAt.millis.toInt - window.toInt ≤ record.addedAt.millis.toInt)
      (Sample.identity 1) id →
    members[id]? = group.members[id]? := by
  intro hall
  obtain ⟨s, -, hgroup⟩ := replay_lastMoment
  have hkept := hall s lastFounders (-1) ⟨Int64.maxValue⟩
    (membersLeft lastFounders.members (Sample.identity 1) (some ⟨some (-1)⟩)
      ⟨Int64.maxValue⟩) (Sample.identity 2) hgroup (by decide) ?_ ?_
  · revert hkept
    decide +kernel
  · rw [removeMembership, hgroup]
    dsimp only
    rw [if_neg (by decide +kernel)]
    rfl
  · -- no membership is dated after the last moment
    intro h
    cases h with
    | added _ _ _ hin =>
        have hlast := Int64.toInt_lt _ |>.trans_le' hin
        have hmax : Int64.maxValue.toInt = 2 ^ 63 - 1 := by decide
        have hback : (-1 : Int64).toInt = -1 := by decide
        dsimp only at hlast
        omega

end GovernanceState

end Intranet
