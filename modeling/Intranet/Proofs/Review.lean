import Intranet.Lib.BTree
import Intranet.Proofs.Pointer
import Intranet.Ref.Review

/-!
# What review lets through

A node that takes in records and a queue that reviews them run side by side.
The queue knows a record by its app and its version, the node may be given
several records of one version and keeps the one with the lowest hash. Beside
the two the run carries what the queue forgets: the record each pending
submission is of, and the records that were pending when somebody entitled to
it approved their version.

A served record is one of these as long as the pair of numbers stands for one
record and approvals are given to submissions (`served_reviewed`).
-/

namespace Intranet

/-- The pair a record is reviewed under. -/
def MutablePointer.appVersion (p : MutablePointer) : AppVersion :=
  ⟨p.pointerId, p.version⟩

/-- A node and a queue, with the history of the queue's submissions. -/
structure Reviewing where
  node : PointerNode
  queue : ReviewQueue
  submitted : List MutablePointer
  behind : BTreeMap AppVersion MutablePointer
  reviewed : List MutablePointer

/-- What happens to them. A record arrives under whatever log the node then
has; an approval is checked against whatever state it is given. -/
inductive ReviewStep where
  | submit (record : MutablePointer)
  | approve (appId : PointerId) (version : UInt64)
      (approver : PerNetworkIdentityId) (state : GovernanceState)
  | accept (log : GovernanceLog) (record : MutablePointer)

namespace Reviewing

variable {C : Crypto} {r : Reviewing}

/-- A node that holds no pointer yet, and an empty queue. -/
def new (log : GovernanceLog) : Reviewing :=
  ⟨PointerNode.new log, ReviewQueue.new, [], ∅, []⟩

def step (C : Crypto) (r : Reviewing) : ReviewStep → Reviewing
  | .submit record =>
      { r with
        queue := r.queue.submit record.pendingPublish
        submitted := record :: r.submitted
        behind := r.behind.insert record.appVersion record }
  | .approve appId version approver state =>
      match r.queue.approve appId version approver state with
      | .error _ => r
      | .ok queue =>
          { r with
            queue
            behind := r.behind.erase ⟨appId, version⟩
            reviewed := r.behind[(⟨appId, version⟩ : AppVersion)]?.toList ++
              r.reviewed }
  | .accept log record =>
      { r with node := ({ r.node with log }.acceptPointer C record).2 }

def run (C : Crypto) (r : Reviewing) (steps : List ReviewStep) : Reviewing :=
  steps.foldl (step C) r

/-- A version stands for one record, and only what is pending is approved. A
record is submitted where the node holds no other record of its version; an
approval finds a submission, or an earlier approval; and a record the node
takes in is the one of its version that was submitted, if one was. -/
def StepSound (C : Crypto) (r : Reviewing) : ReviewStep → Prop
  | .submit record => ∀ held,
      r.node.pointers[record.pointerId]? = some held →
        held.version = record.version → held = record
  | .approve appId version approver state =>
      state.identityHolds approver (.extension approveAppPublish) = true →
        r.queue.waiting.contains ⟨appId, version⟩ = true ∨
          r.queue.approved.contains ⟨appId, version⟩ = true
  | .accept log record =>
      ({ r.node with log }.acceptPointer C record).1 = true →
        ∀ other ∈ r.submitted, other.appVersion = record.appVersion →
          other = record

/-- Every step of the run, where it is taken. -/
def RunSound (C : Crypto) : Reviewing → List ReviewStep → Prop
  | _, [] => True
  | r, step :: rest => r.StepSound C step ∧ RunSound C (r.step C step) rest

/-- What the run carries agrees with the queue. -/
structure Tracked (r : Reviewing) : Prop where
  waiting : ∀ k : AppVersion, r.queue.waiting[k]? =
    r.behind[k]?.map MutablePointer.pendingPublish
  behind : ∀ (k : AppVersion) record, r.behind[k]? = some record →
    record ∈ r.submitted ∧ record.appVersion = k
  reviewed : ∀ record ∈ r.reviewed, record ∈ r.submitted

theorem tracked_new (log : GovernanceLog) : (new log).Tracked where
  waiting _ := rfl
  behind _ _ h := by cases h
  reviewed _ h := by cases h

/-- What an approval does to the run. -/
theorem step_approve (r : Reviewing) (appId : PointerId) (version : UInt64)
    (approver : PerNetworkIdentityId) (state : GovernanceState) :
    r.step C (.approve appId version approver state) =
      if state.identityHolds approver (.extension approveAppPublish) then
        { r with
          queue :=
            { approved := r.queue.approved.insert ⟨appId, version⟩
              waiting := r.queue.waiting.erase ⟨appId, version⟩ }
          behind := r.behind.erase ⟨appId, version⟩
          reviewed := r.behind[(⟨appId, version⟩ : AppVersion)]?.toList ++
            r.reviewed }
      else r := by
  cases hholds : state.identityHolds approver (.extension approveAppPublish) with
  | true =>
      simp only [step, ReviewQueue.approve, hholds, Bool.not_true,
        Bool.false_eq_true, if_false, if_true]
  | false =>
      simp only [step, ReviewQueue.approve, hholds, Bool.not_false,
        Bool.false_eq_true, if_false, if_true]

theorem Tracked.step (h : r.Tracked) (s : ReviewStep) :
    (r.step C s).Tracked := by
  cases s with
  | submit record =>
      refine ⟨fun k => ?_, fun k found hfound => ?_, fun found hfound =>
        List.mem_cons_of_mem _ (h.reviewed found hfound)⟩
      · show (r.queue.waiting.insert record.appVersion
            record.pendingPublish)[k]? =
          (r.behind.insert record.appVersion record)[k]?.map _
        rw [BTreeMap.getElem?_insert_ite, BTreeMap.getElem?_insert_ite]
        split
        · rfl
        · exact h.waiting k
      · change (r.behind.insert record.appVersion record)[k]? =
          some found at hfound
        rw [BTreeMap.getElem?_insert_ite] at hfound
        split at hfound
        · next hk =>
            cases hfound
            exact ⟨List.mem_cons_self, hk⟩
        · obtain ⟨hmem, hk⟩ := h.behind k found hfound
          exact ⟨List.mem_cons_of_mem _ hmem, hk⟩
  | approve appId version approver state =>
      rw [step_approve]
      split
      · refine ⟨fun k => ?_, fun k found hfound => ?_, fun found hfound => ?_⟩
        · dsimp only
          rw [BTreeMap.getElem?_erase_ite, BTreeMap.getElem?_erase_ite]
          split
          · rfl
          · exact h.waiting k
        · dsimp only at hfound
          rw [BTreeMap.getElem?_erase_ite] at hfound
          split at hfound
          · cases hfound
          · exact h.behind k found hfound
        · rcases List.mem_append.1 hfound with hfound | hfound
          · rw [Option.mem_toList] at hfound
            exact (h.behind _ found hfound).1
          · exact h.reviewed found hfound
      · exact h
  | accept log record => exact ⟨h.waiting, h.behind, h.reviewed⟩

theorem Tracked.run (h : r.Tracked) (steps : List ReviewStep) :
    (r.run C steps).Tracked := by
  induction steps generalizing r with
  | nil => exact h
  | cons s rest ih => exact ih (h.step s)

/-! ## Records that were reviewed -/

theorem run_snoc (steps : List ReviewStep) (s : ReviewStep) :
    r.run C (steps ++ [s]) = (r.run C steps).step C s := by
  rw [run, List.foldl_append]
  rfl

/-- In the run, somebody who holds `approve-app-publish` approves the version
of `record` while a submission of exactly `record` is pending. -/
def ReviewedIn (C : Crypto) (r : Reviewing) (steps : List ReviewStep)
    (record : MutablePointer) : Prop :=
  ∃ before approver state after,
    steps = before ++
      .approve record.pointerId record.version approver state :: after ∧
    state.identityHolds approver (.extension approveAppPublish) = true ∧
    (r.run C before).behind[record.appVersion]? = some record ∧
    (r.run C before).queue.waiting[record.appVersion]? =
      some record.pendingPublish

theorem mem_reviewed_step {s : ReviewStep} {record : MutablePointer} :
    record ∈ (r.step C s).reviewed ↔
      record ∈ r.reviewed ∨ ∃ appId version approver state,
        s = .approve appId version approver state ∧
        state.identityHolds approver (.extension approveAppPublish) = true ∧
        r.behind[(⟨appId, version⟩ : AppVersion)]? = some record := by
  cases s with
  | submit other =>
      refine (or_iff_left ?_).symm
      rintro ⟨_, _, _, _, hs, -⟩
      cases hs
  | accept log other =>
      refine (or_iff_left ?_).symm
      rintro ⟨_, _, _, _, hs, -⟩
      cases hs
  | approve appId version approver state =>
      rw [step_approve]
      constructor
      · intro h
        split at h
        · next hholds =>
            rcases List.mem_append.1 h with h | h
            · exact Or.inr ⟨_, _, _, _, rfl, hholds, Option.mem_toList.1 h⟩
            · exact Or.inl h
        · exact Or.inl h
      · rintro (h | ⟨_, _, _, _, hs, hholds, hbehind⟩)
        · split
          · exact List.mem_append_right _ h
          · exact h
        · cases hs
          rw [if_pos hholds]
          exact List.mem_append_left _ (Option.mem_toList.2 hbehind)

/-- The list the run carries is the records reviewed in it. -/
theorem mem_reviewed_iff (log : GovernanceLog) {steps : List ReviewStep}
    {record : MutablePointer} :
    record ∈ ((new log).run C steps).reviewed ↔
      ReviewedIn C (new log) steps record := by
  induction steps using List.reverseRecOn with
  | nil =>
      constructor
      · intro h
        cases h
      · rintro ⟨before, _, _, _, hsplit, -⟩
        cases before <;> cases hsplit
  | append_singleton steps s ih =>
      rw [run_snoc, mem_reviewed_step, ih]
      have htracked := (tracked_new log).run (C := C) steps
      constructor
      · rintro (⟨before, approver, state, after, rfl, h⟩ |
          ⟨appId, version, approver, state, rfl, hholds, hbehind⟩)
        · exact ⟨before, approver, state, after ++ [s], by
            rw [List.append_assoc, List.cons_append], h⟩
        · obtain ⟨-, hkey⟩ := htracked.behind _ record hbehind
          obtain rfl : record.pointerId = appId :=
            congrArg AppVersion.appId hkey
          obtain rfl : record.version = version :=
            congrArg AppVersion.version hkey
          refine ⟨steps, approver, state, [], rfl, hholds, hbehind, ?_⟩
          rw [htracked.waiting]
          exact congrArg (Option.map _) hbehind
      · rintro ⟨before, approver, state, after, hsplit, h⟩
        rcases List.eq_nil_or_concat after with rfl | ⟨rest, last, rfl⟩
        · obtain ⟨rfl, hs⟩ := List.append_inj' hsplit rfl
          cases hs
          exact Or.inr ⟨_, _, _, _, rfl, h.1, h.2.1⟩
        · rw [List.concat_eq_append, ← List.cons_append,
            ← List.append_assoc] at hsplit
          obtain ⟨rfl, -⟩ := List.append_inj' hsplit rfl
          exact Or.inl ⟨before, approver, state, rest, rfl, h⟩

/-! ## Sound runs -/

/-- What holds along a run whose steps are sound. -/
structure Invariant (r : Reviewing) : Prop extends r.Tracked where
  approved : ∀ k : AppVersion, r.queue.approved.contains k = true →
    ∃ record ∈ r.reviewed, record.appVersion = k
  held : ∀ (id : PointerId) record, r.node.pointers[id]? = some record →
    record.pointerId = id ∧ ∀ other ∈ r.submitted,
      other.appVersion = record.appVersion → other = record

theorem invariant_new (log : GovernanceLog) : (new log).Invariant where
  toTracked := tracked_new log
  approved _ h := by cases h
  held _ _ h := by cases h

theorem Invariant.submit (h : r.Invariant) {record : MutablePointer}
    (hsound : r.StepSound C (.submit record)) :
    (r.step C (.submit record)).Invariant := by
  refine ⟨h.toTracked.step _, h.approved, fun id found hfound => ?_⟩
  obtain ⟨hid, hsame⟩ := h.held id found hfound
  refine ⟨hid, fun other hother hversion => ?_⟩
  rcases List.mem_cons.1 hother with rfl | hother
  · have hpointer : other.pointerId = id :=
      (congrArg AppVersion.appId hversion).trans hid
    refine (hsound found ?_ (congrArg AppVersion.version hversion).symm).symm
    rw [hpointer]
    exact hfound
  · exact hsame other hother hversion

theorem Invariant.approve (h : r.Invariant) {appId : PointerId}
    {version : UInt64} {approver : PerNetworkIdentityId}
    {state : GovernanceState}
    (hsound : r.StepSound C (.approve appId version approver state)) :
    (r.step C (.approve appId version approver state)).Invariant := by
  have htracked := h.toTracked.step (C := C)
    (.approve appId version approver state)
  rw [step_approve] at htracked ⊢
  split at htracked
  · next hholds =>
      rw [if_pos hholds]
      refine ⟨htracked, fun k hk => ?_, h.held⟩
      have hold : r.queue.approved.contains k = true →
          ∃ record ∈ r.behind[(⟨appId, version⟩ : AppVersion)]?.toList ++
            r.reviewed, record.appVersion = k := by
        intro hk
        obtain ⟨record, hrecord, hversion⟩ := h.approved k hk
        exact ⟨record, List.mem_append_right _ hrecord, hversion⟩
      dsimp only at hk ⊢
      rw [Std.ExtTreeSet.contains_iff_mem, BTreeSet.mem_insert_iff,
        ← Std.ExtTreeSet.contains_iff_mem] at hk
      rcases hk with rfl | hk
      · rcases hsound hholds with hwaiting | happroved
        · -- the submission that is pending is the one now reviewed
          rw [Std.ExtTreeMap.contains_eq_isSome_getElem?, h.waiting,
            Option.isSome_map, Option.isSome_iff_exists] at hwaiting
          obtain ⟨record, hrecord⟩ := hwaiting
          refine ⟨record, ?_, (h.behind _ record hrecord).2⟩
          rw [hrecord]
          exact List.mem_cons_self
        · exact hold happroved
      · exact hold hk
  · next hholds =>
      rw [if_neg hholds]
      exact h

theorem Invariant.accept (h : r.Invariant) {log : GovernanceLog}
    {record : MutablePointer} (hsound : r.StepSound C (.accept log record)) :
    (r.step C (.accept log record)).Invariant := by
  refine ⟨h.toTracked.step _, h.approved, fun id found hfound => ?_⟩
  change ({ r.node with log }.acceptPointer C record).2.pointers[id]? =
    some found at hfound
  change ({ r.node with log }.acceptPointer C record).1 = true → _ at hsound
  unfold PointerNode.acceptPointer at hfound hsound
  have hkept : (r.node.pointers.insert record.pointerId record)[id]? =
      some found →
      (∀ other ∈ r.submitted, other.appVersion = record.appVersion →
        other = record) →
      found.pointerId = id ∧ ∀ other ∈ r.submitted,
        other.appVersion = found.appVersion → other = found := by
    intro hfound hrecord
    rw [BTreeMap.getElem?_insert_ite] at hfound
    split at hfound
    · next hid =>
        cases hfound
        exact ⟨hid, hrecord⟩
    · exact h.held id found hfound
  split at hfound
  · exact h.held id found hfound
  · next hpublishable =>
      rw [if_neg hpublishable] at hsound
      dsimp only at hfound hsound
      split at hfound
      · next current hcurrent =>
          rw [hcurrent] at hsound
          dsimp only at hsound
          split at hfound
          · exact h.held id found hfound
          · next hwins =>
              rw [if_neg hwins] at hsound
              exact hkept hfound (hsound rfl)
      · next hnone =>
          rw [hnone] at hsound
          exact hkept hfound (hsound rfl)

/-- One step. -/
theorem Invariant.step (h : r.Invariant) {s : ReviewStep}
    (hsound : r.StepSound C s) : (r.step C s).Invariant := by
  cases s with
  | submit record => exact h.submit hsound
  | approve appId version approver state => exact h.approve hsound
  | accept log record => exact h.accept hsound

theorem Invariant.run (h : r.Invariant) {steps : List ReviewStep}
    (hsound : RunSound C r steps) : (r.run C steps).Invariant := by
  induction steps generalizing r with
  | nil => exact h
  | cons s rest ih => exact ih (h.step hsound.1) hsound.2

/-- Under reviewed publishing only reviewed content is served, in every run
whose steps are sound: the record the node holds for an app, at a version that
is servable, was pending when somebody who holds `approve-app-publish` let it
through. -/
theorem served_reviewed (C : Crypto) (log : GovernanceLog)
    (steps : List ReviewStep) (hsound : RunSound C (new log) steps)
    (appId : PointerId) (record : MutablePointer)
    (hheld : ((new log).run C steps).node.pointers[appId]? = some record)
    (hservable : ((new log).run C steps).queue.isServable appId record.version
      .reviewed = true) :
    ReviewedIn C (new log) steps record := by
  have hinv := (invariant_new log).run hsound
  obtain ⟨hid, hsame⟩ := hinv.held appId record hheld
  obtain ⟨found, hfound, hversion⟩ :=
    hinv.approved ⟨appId, record.version⟩ hservable
  have hkey : found.appVersion = record.appVersion := by
    rw [hversion, MutablePointer.appVersion, hid]
  rw [hsame found (hinv.reviewed found hfound) hkey] at hfound
  exact (mem_reviewed_iff log).1 hfound

end Reviewing

/-! ## A review that is bypassed -/

namespace Sample

/-- A version of app 9 by identity 1, the founder, leading to `content`. -/
def app (version : UInt64) (content nonce : ℕ) : MutablePointer :=
  { pointer 9 1 version nonce with
    contentType := appBundleContentType
    currentCid := ⟨hash content⟩ }

/-- The founder publishes a version of the app, submits it and approves it. -/
def reviewedPublish (state : GovernanceState) : List ReviewStep :=
  [.accept textLog (app 0 5 4), .submit (app 0 5 4),
    .approve (app 0 5 4).pointerId 0 (identity 1) state]

theorem founder_approves : ∃ state,
    textLog.replayCanonical .sample = .ok state ∧
      state.identityHolds (identity 1) (.extension approveAppPublish) =
        true := by
  have hcheck : Run.okAnd (textLog.replayCanonical .sample) (fun state =>
      state.identityHolds (identity 1) (.extension approveAppPublish)) =
        true := by
    decide +kernel
  exact Run.okAnd_iff.1 hcheck

end Sample

namespace Reviewing

/-- What was submitted and approved is served. -/
theorem served_reviewed_publish : ∃ state,
    ReviewedIn .sample (new Sample.textLog) (Sample.reviewedPublish state)
      (Sample.app 0 5 4) := by
  obtain ⟨state, -, hholds⟩ := Sample.founder_approves
  have hstep := step_approve (C := .sample)
    (((new Sample.textLog).step .sample (.accept Sample.textLog
      (Sample.app 0 5 4))).step .sample (.submit (Sample.app 0 5 4)))
    (Sample.app 0 5 4).pointerId 0 (Sample.identity 1) state
  rw [if_pos hholds] at hstep
  refine ⟨state, served_reviewed .sample Sample.textLog
    (Sample.reviewedPublish state) ?_ (Sample.app 0 5 4).pointerId
    (Sample.app 0 5 4) ?_ ?_⟩
  · refine ⟨fun _ other hother _ => ?_, fun held hheld _ => ?_, fun _ => ?_,
      trivial⟩
    · cases hother
    · have hone : ((new Sample.textLog).step .sample (.accept Sample.textLog
          (Sample.app 0 5 4))).node.pointers[(Sample.app 0 5 4).pointerId]? =
            some (Sample.app 0 5 4) := by
        decide +kernel
      rw [hone, Option.some.injEq] at hheld
      exact hheld.symm
    · exact Or.inl (by decide +kernel)
  · simp only [run, Sample.reviewedPublish, List.foldl_cons, List.foldl_nil,
      hstep]
    decide +kernel
  · simp only [run, Sample.reviewedPublish, List.foldl_cons, List.foldl_nil,
      hstep]
    decide +kernel

/-- The founder then signs other content as the same version. Its record has
the lower hash, so the node holds it in the place of the reviewed one, and its
version number is approved. -/
theorem second_record_unreviewed : ∃ state,
    let steps := Sample.reviewedPublish state ++
      [.accept Sample.textLog (Sample.app 0 6 3)]
    let after := (new Sample.textLog).run .sample steps
    state.identityHolds (Sample.identity 1) (.extension approveAppPublish) =
      true ∧
    after.node.pointers[(Sample.app 0 6 3).pointerId]? =
      some (Sample.app 0 6 3) ∧
    after.queue.isServable (Sample.app 0 6 3).pointerId
      (Sample.app 0 6 3).version .reviewed = true ∧
    ¬ReviewedIn .sample (new Sample.textLog) steps (Sample.app 0 6 3) := by
  obtain ⟨state, -, hholds⟩ := Sample.founder_approves
  have hstep := step_approve (C := .sample)
    (((new Sample.textLog).step .sample (.accept Sample.textLog
      (Sample.app 0 5 4))).step .sample (.submit (Sample.app 0 5 4)))
    (Sample.app 0 5 4).pointerId 0 (Sample.identity 1) state
  rw [if_pos hholds] at hstep
  refine ⟨state, hholds, ?_, ?_, ?_⟩
  · rw [run_snoc]
    simp only [run, Sample.reviewedPublish, List.foldl_cons, List.foldl_nil,
      hstep]
    decide +kernel
  · rw [run_snoc]
    simp only [run, Sample.reviewedPublish, List.foldl_cons, List.foldl_nil,
      hstep]
    decide +kernel
  · rw [← mem_reviewed_iff, run_snoc]
    simp only [run, Sample.reviewedPublish, List.foldl_cons, List.foldl_nil,
      hstep]
    decide +kernel

end Reviewing

end Intranet
