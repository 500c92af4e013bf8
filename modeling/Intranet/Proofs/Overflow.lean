import Intranet.Lib.Checked
import Intranet.Lib.Run
import Intranet.Proofs.Join
import Intranet.Proofs.RoundTrip
import Intranet.Proofs.Time
import Intranet.Ref.Checked

/-!
# Where governance time overflows

Two operators on the way through governance are neither saturating nor
checked: the minus in front of a cascade's window, and the minus between two
timestamps. The operands are signed by a peer and otherwise anything. The
first stops a debug build for one window only, and only where the removal is
permitted and finds its member. The second does for every entry too far from
the clock, and in a release build it is there that an entry's age has the
wrong sign.
-/

namespace Intranet

/-! ## The operators -/

/-- The distance from `earlier` to `t` can be held in an `i64`. -/
def Timestamp.Fits (t earlier : Timestamp) : Prop :=
  -2 ^ 63 ≤ t.millis.toInt - earlier.millis.toInt ∧
    t.millis.toInt - earlier.millis.toInt < 2 ^ 63

theorem negChecked_checked (x : Int64) :
    Checked (negChecked x) (-x) (x = Int64.minValue) where
  none_of h := if_pos h
  some_of h := if_neg h

theorem Timestamp.millisSince_checked (t earlier : Timestamp) :
    Checked (t.millisSinceChecked earlier) (t.millisSince earlier)
      (¬t.Fits earlier) where
  none_of h := if_neg h
  some_of h := if_pos (not_not.1 h)

/-- The sign of an age is right exactly where the distance fits. -/
theorem Timestamp.sign_millisSince_iff (t earlier : Timestamp) :
    ((t.millis < earlier.millis → t.millisSince earlier < 0) ∧
        (earlier.millis < t.millis → 0 < t.millisSince earlier)) ↔
      t.Fits earlier := by
  have hwrap : (t.millisSince earlier).toInt =
      (t.millis.toInt - earlier.millis.toInt).bmod (2 ^ 64) :=
    Int64.toInt_sub _ _
  have hzero : (0 : Int64).toInt = 0 := rfl
  have ht := t.millis.toInt_lt
  have ht' := t.millis.le_toInt
  have he := earlier.millis.toInt_lt
  have he' := earlier.millis.le_toInt
  simp only [Int64.lt_iff_toInt_lt, hzero, Timestamp.Fits]
  constructor
  · rintro ⟨hneg, hpos⟩
    rw [hwrap, Int.bmod_def] at hneg hpos
    split at hneg <;> omega
  · intro hfit
    rw [Timestamp.millisSince_toInt hfit]
    omega

namespace GovernanceState

variable {C : Crypto} {s : GovernanceState}

/-! ## Applying an entry -/

/-- The removal of a member with the one window that has no negation. -/
def NegatesMin (s : GovernanceState) (body : EntryBody) : Prop :=
  ∃ groupId identity group,
    body = .membershipChange groupId identity
      (.remove (some ⟨some Int64.minValue⟩)) ∧
    s.groups[groupId]? = some group ∧
    group.members.contains identity = true

/-- Such a removal, and everything `apply` checks ahead of it passes. -/
def Stops (C : Crypto) (s : GovernanceState) (entry : LogEntry) : Prop :=
  s.permit C entry = .ok () ∧ s.NegatesMin entry.body

theorem removeMembership_checked (s : GovernanceState) (groupId : GroupId)
    (identity : PerNetworkIdentityId) (cascade : Option Cascade)
    (removedAt : Timestamp) :
    Checked (s.removeMembershipChecked groupId identity cascade removedAt)
      (s.removeMembership groupId identity cascade removedAt)
      (s.NegatesMin (.membershipChange groupId identity (.remove cascade))) := by
  unfold removeMembershipChecked removeMembership
  cases hgroup : s.groups[groupId]? with
  | none =>
      refine .of_not fun h => ?_
      obtain ⟨_, _, group, hbody, hsome, -⟩ := h
      cases hbody
      rw [hgroup] at hsome
      cases hsome
  | some group =>
      dsimp only
      cases hmember : group.members.contains identity with
      | false =>
          refine .of_not fun h => ?_
          obtain ⟨_, _, other, hbody, hsome, hother⟩ := h
          cases hbody
          rw [hgroup] at hsome
          cases hsome
          rw [hmember] at hother
          cases hother
      | true =>
          rw [if_neg (by decide), if_neg (by decide)]
          cases cascade with
          | none =>
              refine .of_not fun h => ?_
              obtain ⟨_, _, _, hbody, -, -⟩ := h
              cases hbody
          | some cascade =>
              obtain ⟨windowMillis⟩ := cascade
              cases windowMillis with
              | none =>
                  refine .of_not fun h => ?_
                  obtain ⟨_, _, _, hbody, -, -⟩ := h
                  cases hbody
              | some window =>
                  refine ((negChecked_checked window).map _).congr ?_
                  constructor
                  · rintro rfl
                    exact ⟨_, _, group, rfl, hgroup, hmember⟩
                  · rintro ⟨_, _, _, hbody, -, -⟩
                    cases hbody
                    rfl

theorem mutate_checked (C : Crypto) (s : GovernanceState) (entry : LogEntry) :
    Checked (s.mutateChecked C entry) (s.mutate C entry)
      (s.NegatesMin entry.body) := by
  unfold mutateChecked
  split
  · next groupId identity cascade hbody =>
      rw [mutate, hbody]
      exact s.removeMembership_checked groupId identity cascade entry.timestamp
  · next hother =>
      refine .of_not fun h => ?_
      obtain ⟨groupId, identity, -, hbody, -, -⟩ := h
      exact hother groupId identity _ hbody

theorem apply_eq (C : Crypto) (s : GovernanceState) (entry : LogEntry) :
    s.apply C entry =
      (s.permit C entry).bind fun _ => (s.mutate C entry).bind settle := by
  unfold apply permit
  cases entry.verifySignature C with
  | error err => rfl
  | ok u =>
      cases entry.body.isGenesis with
      | true => rfl
      | false =>
          cases entry.parent.isNone with
          | true => rfl
          | false =>
              cases s.authorize C entry with
              | error err => rfl
              | ok u => rfl

theorem apply_checked (C : Crypto) (s : GovernanceState) (entry : LogEntry) :
    Checked (s.applyChecked C entry) (s.apply C entry)
      (s.Stops C entry) := by
  rw [apply_eq]
  unfold applyChecked Stops
  cases s.permit C entry with
  | error err =>
      refine .of_not fun h => ?_
      cases h.1
  | ok u =>
      exact ((s.mutate_checked C entry).map _).congr
        (and_iff_right rfl).symm

/-! ## Replaying a chain -/

/-- Some entry of the list stops, where the ones before it replay from `s`. -/
def StopsIn (C : Crypto) (s : GovernanceState) (entries : List LogEntry) :
    Prop :=
  ∃ before entry after t, entries = before ++ entry :: after ∧
    before.foldlM (apply C) s = .ok t ∧ t.Stops C entry

theorem not_stopsIn_nil : ¬s.StopsIn C [] := by
  rintro ⟨before, entry, after, t, hsplit, -⟩
  cases before <;> cases hsplit

theorem stopsIn_cons {e : LogEntry} {rest : List LogEntry} :
    s.StopsIn C (e :: rest) ↔
      s.Stops C e ∨ ∃ next, s.apply C e = .ok next ∧ next.StopsIn C rest := by
  constructor
  · rintro ⟨before, entry, after, t, hsplit, hrun, hstops⟩
    cases before with
    | nil =>
        cases hsplit
        cases hrun
        exact Or.inl hstops
    | cons first before =>
        cases hsplit
        obtain ⟨next, hnext, hrun⟩ := Run.foldlM_ok_cons.1 hrun
        exact Or.inr ⟨next, hnext, before, entry, after, t, rfl, hrun, hstops⟩
  · rintro (hstops | ⟨next, hnext, before, entry, after, t, rfl, hrun, hstops⟩)
    · exact ⟨[], e, rest, s, rfl, rfl, hstops⟩
    · exact ⟨e :: before, entry, after, t, rfl,
        Run.foldlM_ok_cons.2 ⟨next, hnext, hrun⟩, hstops⟩

theorem applyAll_checked (C : Crypto) (s : GovernanceState)
    (entries : List LogEntry) :
    Checked (applyAllChecked C s entries) (entries.foldlM (apply C) s)
      (s.StopsIn C entries) := by
  induction entries generalizing s with
  | nil => exact .of_not not_stopsIn_nil
  | cons e rest ih =>
      rw [applyAllChecked, List.foldlM_cons]
      by_cases hstops : s.Stops C e
      · rw [(s.apply_checked C e).none_of hstops]
        exact ⟨fun _ => rfl, fun h => absurd (stopsIn_cons.2 (.inl hstops)) h⟩
      · rw [(s.apply_checked C e).some_of hstops]
        cases hnext : s.apply C e with
        | error err =>
            refine .of_not fun h => ?_
            rcases stopsIn_cons.1 h with h | ⟨next, hok, -⟩
            · exact hstops h
            · rw [hnext] at hok
              cases hok
        | ok next =>
            refine (ih next).congr ?_
            rw [stopsIn_cons, or_iff_right hstops]
            constructor
            · intro h
              exact ⟨next, hnext, h⟩
            · rintro ⟨_, hok, h⟩
              rw [hnext] at hok
              cases hok
              exact h

/-- Some entry of the chain stops, where the ones before it replay. -/
def ReplayStops (C : Crypto) (entries : List LogEntry) : Prop :=
  ∃ before entry after t, entries = before ++ entry :: after ∧
    replay C before = .ok t ∧ t.Stops C entry

theorem replayStops_cons {first : LogEntry} {rest : List LogEntry} :
    ReplayStops C (first :: rest) ↔
      ∃ state, genesis C first = .ok state ∧ state.StopsIn C rest := by
  constructor
  · rintro ⟨before, entry, after, t, hsplit, hrun, hstops⟩
    cases before with
    | nil => cases hrun
    | cons head before =>
        cases hsplit
        obtain ⟨state, hgenesis, hrun⟩ := Run.bind_ok.1 hrun
        exact ⟨state, hgenesis, before, entry, after, t, rfl, hrun, hstops⟩
  · rintro ⟨state, hgenesis, before, entry, after, t, rfl, hrun, hstops⟩
    exact ⟨first :: before, entry, after, t, rfl,
      Run.bind_ok.2 ⟨state, hgenesis, hrun⟩, hstops⟩

theorem replay_checked (C : Crypto) (entries : List LogEntry) :
    Checked (replayChecked C entries) (replay C entries)
      (ReplayStops C entries) := by
  cases entries with
  | nil =>
      refine .of_not ?_
      rintro ⟨before, entry, after, t, hsplit, -⟩
      cases before <;> cases hsplit
  | cons first rest =>
      rw [replayChecked, replay]
      cases hgenesis : genesis C first with
      | error err =>
          refine .of_not fun h => ?_
          obtain ⟨state, hok, -⟩ := replayStops_cons.1 h
          rw [hgenesis] at hok
          cases hok
      | ok state =>
          refine (applyAll_checked C state rest).congr ?_
          rw [replayStops_cons, hgenesis]
          constructor
          · intro h
            exact ⟨state, rfl, h⟩
          · rintro ⟨_, hok, h⟩
            cases hok
            exact h

end GovernanceState

/-! ## Reconciling -/

namespace GovernanceLog

variable {log : GovernanceLog} {now : Timestamp}

/-- Some stored entry of `chain` is too far from `now`. -/
def TooFar (log : GovernanceLog) (now : Timestamp) (chain : List Hash) : Prop :=
  ∃ hash ∈ chain, ∃ entry, log.entries[hash]? = some entry ∧
    ¬now.Fits entry.timestamp

theorem newlyFinal_checked (log : GovernanceLog) (params : FinalityParams)
    (now : Timestamp) (chain : List Hash) :
    ∀ (index : ℕ) (found : Option ℕ),
      Checked (log.newlyFinalChecked params now index chain found)
        (log.newlyFinal params now index chain found)
        (log.TooFar now chain) := by
  induction chain with
  | nil =>
      intro index found
      refine .of_not ?_
      rintro ⟨hash, hmem, -⟩
      cases hmem
  | cons hash later ih =>
      intro index found
      have hround : Checked (log.meetsFinalityChecked params now hash later)
          (log.meetsFinality params now hash later)
          (∃ entry, log.entries[hash]? = some entry ∧
            ¬now.Fits entry.timestamp) := by
        unfold meetsFinalityChecked meetsFinality
        cases hentry : log.entries[hash]? with
        | none =>
            refine .of_not ?_
            rintro ⟨entry, hsome, -⟩
            cases hsome
        | some entry =>
            refine ((now.millisSince_checked entry.timestamp).map _).congr ?_
            constructor
            · intro h
              exact ⟨entry, rfl, h⟩
            · rintro ⟨_, hsome, h⟩
              cases hsome
              exact h
      have hsteps : log.newlyFinalChecked params now index (hash :: later) found =
          (log.meetsFinalityChecked params now hash later).bind fun met =>
            log.newlyFinalChecked params now (index + 1) later
              (if met then some index else found) := by
        rw [newlyFinalChecked]
        cases log.meetsFinalityChecked params now hash later <;> rfl
      rw [hsteps, newlyFinal]
      refine (hround.bind (ih (index + 1) _)).congr ?_
      simp only [TooFar, List.mem_cons, exists_eq_or_imp]

theorem advanceFinality_checked (C : Crypto) (log : GovernanceLog)
    (now : Timestamp) :
    Checked (log.advanceFinalityChecked C log.canonicalChain now)
      (log.advanceFinality C log.canonicalChain now)
      (GovernanceState.ReplayStops C log.canonicalEntries ∨
        (∃ state, log.replayCanonical C = .ok state) ∧
          log.TooFar now log.canonicalChain) := by
  have hreplay : Checked (log.replayCanonicalChecked C) (log.replayCanonical C)
      (GovernanceState.ReplayStops C log.canonicalEntries) :=
    GovernanceState.replay_checked C log.canonicalEntries
  by_cases hstops : GovernanceState.ReplayStops C log.canonicalEntries
  · rw [advanceFinalityChecked, hreplay.none_of hstops]
    exact ⟨fun _ => rfl, fun hgoes => absurd (Or.inl hstops) hgoes⟩
  · refine Checked.congr ?_ (or_iff_right hstops).symm
    rw [advanceFinalityChecked, hreplay.some_of hstops, advanceFinality]
    cases log.replayCanonical C with
    | error err =>
        refine .of_not ?_
        rintro ⟨⟨state, hok⟩, -⟩
        cases hok
    | ok state =>
        refine ((log.newlyFinal_checked state.policy.finality now
          log.canonicalChain 0 none).map _).congr ?_
        exact (and_iff_right ⟨state, rfl⟩).symm

theorem reconcile_checked (C : Crypto) (log : GovernanceLog)
    (now : Timestamp) :
    Checked (log.reconcileChecked C now) (log.reconcile C now)
      (GovernanceState.ReplayStops C log.canonicalEntries ∨
        (∃ state, log.replayCanonical C = .ok state) ∧
          log.TooFar now log.canonicalChain) := by
  cases hroot : log.root with
  | none =>
      have hchain : log.canonicalChain = [] := by
        rw [canonicalChain, hroot]
      rw [reconcileChecked, reconcile, hroot]
      refine .of_not ?_
      rw [canonicalEntries, hchain]
      rintro (⟨before, entry, after, t, hsplit, -⟩ | ⟨-, hash, hmem, -⟩)
      · cases before <;> cases hsplit
      · cases hmem
  | some root =>
      have hchain : log.canonicalChain =
          log.chainThrough (log.finalized.getD root) := by
        rw [canonicalChain, hroot]
      have hadvance := log.advanceFinality_checked C now
      rw [reconcileChecked, reconcile, hroot]
      rw [hchain] at hadvance ⊢
      exact hadvance.map _

end GovernanceLog

/-- Where governance arithmetic is exact. An entry is applied without an
overflow unless everything ahead of its effects passes and it takes out a
member under a window of `i64::MIN`; a log is reconciled without one if and
only if no entry of the canonical chain is such a removal where the chain is
replayed up to it and, once the chain replays, the distance between the clock
and each of its entries can be held; and the age of an entry is computed, and
its sign is right, exactly when that distance can. -/
theorem time_arithmetic_iff (C : Crypto) :
    (∀ (s : GovernanceState) (entry : LogEntry),
      s.applyChecked C entry = some (s.apply C entry) ↔
        ¬(s.permit C entry = .ok () ∧ s.NegatesMin entry.body)) ∧
    (∀ (log : GovernanceLog) (now : Timestamp),
      log.reconcileChecked C now = some (log.reconcile C now) ↔
        ¬GovernanceState.ReplayStops C log.canonicalEntries ∧
        ∀ state, log.replayCanonical C = .ok state →
          ∀ hash ∈ log.canonicalChain, ∀ entry,
            log.entries[hash]? = some entry → now.Fits entry.timestamp) ∧
    ∀ (now : Timestamp) (entry : LogEntry),
      (now.millisSinceChecked entry.timestamp =
          some (now.millisSince entry.timestamp) ∧
        (now.millis < entry.timestamp.millis →
          now.millisSince entry.timestamp < 0) ∧
        (entry.timestamp.millis < now.millis →
          0 < now.millisSince entry.timestamp)) ↔
        now.Fits entry.timestamp := by
  refine ⟨fun s entry => (s.apply_checked C entry).eq_some_iff,
    fun log now => ?_, fun now entry => ?_⟩
  · rw [(log.reconcile_checked C now).eq_some_iff, not_or, not_and]
    refine and_congr_right fun _ => ?_
    constructor
    · intro h state hstate hash hmem entry hentry
      by_contra hfar
      exact h ⟨state, hstate⟩ ⟨hash, hmem, entry, hentry, hfar⟩
    · rintro h ⟨state, hstate⟩ ⟨hash, hmem, entry, hentry, hfar⟩
      exact hfar (h state hstate hash hmem entry hentry)
  · rw [Timestamp.sign_millisSince_iff,
      (now.millisSince_checked entry.timestamp).eq_some_iff, not_not, and_self]

/-- The founder leaves `Founders` in the first representable millisecond,
taking along everyone added in a window of `i64::MIN`: the entry is read from
the wire, applying it overflows, and at the epoch its age is negative. -/
theorem first_millisecond_overflows :
    let entry := Sample.entry 1 (some 0) Int64.minValue 1
      (.membershipChange GroupId.founders (Sample.identity 1)
        (.remove (some ⟨some Int64.minValue⟩)))
    let now : Timestamp := ⟨0⟩
    Wire.decodeEntry .sample (fun _ => true) (Wire.encodeEntry entry) =
      .ok entry ∧
    (∃ s, GovernanceState.replay .sample
        [Sample.genesis 0 NetworkPolicy.conservativeDefault []] = .ok s ∧
      s.applyChecked .sample entry = none) ∧
    entry.timestamp.millis < now.millis ∧
    now.millisSinceChecked entry.timestamp = none ∧
    now.millisSince entry.timestamp < 0 := by
  refine ⟨?_, ?_, by decide, by decide, by decide⟩
  · exact decodeEntryWith_encodeEntry (Sample.verifySignature_entry _ _ _ _ _)
      ⟨rfl, rfl, fun _ h => by cases h⟩ (by decide +kernel)
  · have hcheck : Run.okAnd (GovernanceState.replay .sample
        [Sample.genesis 0 NetworkPolicy.conservativeDefault []]) (fun s =>
          (s.applyChecked .sample (Sample.entry 1 (some 0) Int64.minValue 1
            (.membershipChange GroupId.founders (Sample.identity 1)
              (.remove (some ⟨some Int64.minValue⟩))))).isNone) = true := by
      decide +kernel
    obtain ⟨s, hs, hnone⟩ := Run.okAnd_iff.1 hcheck
    exact ⟨s, hs, Option.isNone_iff_eq_none.1 hnone⟩

end Intranet
