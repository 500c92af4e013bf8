import Intranet.Lib.Machine
import Intranet.Lib.Run
import Intranet.Lib.Window
import Intranet.Proofs.Time
import Intranet.Ref.Audit
import Intranet.Ref.DirectMeter
import Intranet.Ref.Sample

/-!
# Sliding windows

The meter of direct messages and the limit on audits both keep, for every
peer, the times of what they let through. Each history is a log of
`Lib.Window`: a call is an `ask` of the caller's own log, and what it does to
the others is a prune at most.

The meter's table is the one thing that senders share. A sender is turned away
on its account only if the table holds `maxTracked` senders with something in
the window, each of which was seen there (`tracked_forgetStale_le`); short of
that, the answers to a sender are those of its own log (`answersTo_eq`).
-/

namespace Intranet

open Window (prune ask record Covers Alike)

namespace DirectMeter

/-! ### One message -/

/-- A sender's history. -/
def log (meter : DirectMeter) (sender : PerNetworkIdentityId) :
    List Instant :=
  meter.seen[sender]?.getD []

variable {meter : DirectMeter} {sender other : PerNetworkIdentityId}
  {now : Instant}

theorem log_forgetStale (meter : DirectMeter) (now : Instant)
    (sender : PerNetworkIdentityId) :
    (meter.forgetStale now).log sender =
      prune inWindow (meter.log sender) now := by
  rw [log, log, forgetStale, Std.ExtTreeMap.getElem?_filterMap']
  cases meter.seen[sender]? with
  | none => rfl
  | some history =>
      rw [Option.bind_some, Option.getD_some, prune]
      dsimp only
      split
      · next hnone =>
          rw [List.isEmpty_iff] at hnone
          rw [hnone]
          rfl
      · rfl

theorem log_insert (meter : DirectMeter) (sender other : PerNetworkIdentityId)
    (history : List Instant) :
    (DirectMeter.mk (meter.seen.insert sender history)).log other =
      if sender = other then history else meter.log other := by
  rw [log, log, BTreeMap.getElem?_insert_ite]
  split <;> rfl

theorem count_eq (meter : DirectMeter) (sender : PerNetworkIdentityId)
    (now : Instant) :
    meter.count sender now =
      ((ask inWindow perWindow (meter.log sender) now).1,
        ⟨meter.seen.insert sender
          (ask inWindow perWindow (meter.log sender) now).2⟩) := by
  rw [ask]
  by_cases h : (prune inWindow (meter.log sender) now).length < perWindow
  · rw [if_pos h]
    exact if_neg (Nat.not_le.2 h)
  · rw [if_neg h]
    exact if_pos (Nat.not_lt.1 h)

/-- The table is full of senders with something in the window, and the sender
is not one of them. -/
def Crowded (meter : DirectMeter) (sender : PerNetworkIdentityId)
    (now : Instant) : Prop :=
  (maxTracked ≤ meter.tracked ∧ !meter.seen.contains sender) ∧
    maxTracked ≤ (meter.forgetStale now).tracked

theorem log_of_not_contains
    (h : (!meter.seen.contains sender) = true) : meter.log sender = [] := by
  have hnot : sender ∉ meter.seen := by
    rw [← Std.ExtTreeMap.contains_iff_mem, Bool.eq_false_of_not_eq_true' h]
    exact Bool.false_ne_true
  rw [log, (BTreeMap.getElem?_eq_none_iff _ _).2 hnot, Option.getD_none]

/-- A message is turned away unread, or answered from the sender's own log. -/
theorem admits_own (meter : DirectMeter) (sender : PerNetworkIdentityId)
    (now : Instant) :
    (meter.Crowded sender now ∧ (meter.admits sender now).1 = false ∧
        (meter.admits sender now).2.log sender =
          prune inWindow (meter.log sender) now) ∨
      ((meter.admits sender now).1 =
          (ask inWindow perWindow (meter.log sender) now).1 ∧
        (meter.admits sender now).2.log sender =
          (ask inWindow perWindow (meter.log sender) now).2) := by
  rw [admits]
  split
  · next hfull =>
      dsimp only
      split
      · next hlive =>
          exact .inl ⟨⟨hfull, hlive⟩, rfl, log_forgetStale meter now sender⟩
      · refine .inr ?_
        have hlog : (meter.forgetStale now).log sender = meter.log sender := by
          rw [log_forgetStale, log_of_not_contains hfull.2]
          rfl
        rw [count_eq, hlog]
        exact ⟨rfl, by rw [log_insert, if_pos rfl]⟩
  · refine .inr ?_
    rw [count_eq]
    exact ⟨rfl, by rw [log_insert, if_pos rfl]⟩

/-- The other senders' logs are at most pruned. -/
theorem admits_other (meter : DirectMeter) {sender other}
    (hne : sender ≠ other) (now : Instant) :
    (meter.admits sender now).2.log other = meter.log other ∨
      (meter.admits sender now).2.log other =
        prune inWindow (meter.log other) now := by
  rw [admits]
  split
  · dsimp only
    split
    · exact .inr (log_forgetStale meter now other)
    · refine .inr ?_
      rw [count_eq, log_insert, if_neg hne]
      exact log_forgetStale meter now other
  · refine .inl ?_
    rw [count_eq, log_insert, if_neg hne]

/-! ### The table -/

theorem tracked_count_le (h : meter.tracked < maxTracked ∨
      meter.tracked ≤ maxTracked ∧ meter.seen.contains sender = true)
    (now : Instant) : (meter.count sender now).2.tracked ≤ maxTracked := by
  have hsize : (meter.count sender now).2.tracked =
      if sender ∈ meter.seen then meter.tracked else meter.tracked + 1 := by
    rw [count_eq, tracked, Std.ExtTreeMap.size_insert]
    rfl
  rw [hsize]
  split
  · rcases h with h | h
    · exact h.le
    · exact h.1
  · next hnew =>
      rcases h with h | h
      · exact h
      · exact absurd (Std.ExtTreeMap.contains_iff_mem.1 h.2) hnew

theorem tracked_admits_le (h : meter.tracked ≤ maxTracked)
    (sender : PerNetworkIdentityId) (now : Instant) :
    (meter.admits sender now).2.tracked ≤ maxTracked := by
  rw [admits]
  split
  · dsimp only
    split
    · exact Std.ExtTreeMap.size_filterMap_le_size.trans h
    · next hroom => exact tracked_count_le (.inl (Nat.not_le.1 hroom)) now
  · next hroom =>
      rw [not_and_or, Nat.not_le, Bool.not_eq_true', Bool.not_eq_false] at hroom
      exact tracked_count_le (hroom.imp_right fun hin => ⟨h, hin⟩) now

/-! ### Runs of messages -/

/-- A message: who sent it, and when it came. -/
abbrev Call := PerNetworkIdentityId × Instant

def step (meter : DirectMeter) (call : Call) : Bool × DirectMeter :=
  meter.admits call.1 call.2

/-- When each message came. -/
abbrev times (calls : List Call) : List Instant := calls.map Prod.snd

/-- How many senders have been seen within the window before `now`. -/
def seenWithin (calls : List Call) (now : Instant) : ℕ :=
  ((calls.filter fun call => inWindow call.2 now).map Prod.fst).dedup.length

/-- When the messages of a sender that got through came. -/
def passed (sender : PerNetworkIdentityId) (trace : List (Call × Bool)) :
    List Instant :=
  (trace.filter fun e => e.1.1 = sender ∧ e.2).map fun e => e.1.2

/-- What a sender was answered. -/
def answersTo (sender : PerNetworkIdentityId) (trace : List (Call × Bool)) :
    List Bool :=
  (trace.filter fun e => e.1.1 = sender).map Prod.snd

theorem tracked_state_le (calls : List Call) :
    (Machine.state step new calls).tracked ≤ maxTracked := by
  refine Machine.invariant (P := fun m : DirectMeter => m.tracked ≤ maxTracked)
    ?_ ?_ calls
  · exact Nat.zero_le _
  · intro meter call h
    exact tracked_admits_le h call.1 call.2

theorem passed_snoc (sender : PerNetworkIdentityId)
    (trace : List (Call × Bool)) (call : Call) (answer : Bool) :
    passed sender (trace ++ [(call, answer)]) =
      if call.1 = sender then record (passed sender trace) call.2 answer
      else passed sender trace := by
  rw [passed, List.filter_append, List.map_append, List.filter_singleton,
    record]
  by_cases hown : call.1 = sender
  · rw [if_pos hown]
    cases answer <;> simp [hown, passed]
  · rw [if_neg hown]
    simp [hown, passed]

theorem answersTo_snoc (sender : PerNetworkIdentityId)
    (trace : List (Call × Bool)) (call : Call) (answer : Bool) :
    answersTo sender (trace ++ [(call, answer)]) =
      if call.1 = sender then answersTo sender trace ++ [answer]
      else answersTo sender trace := by
  rw [answersTo, List.filter_append, List.map_append, List.filter_singleton]
  by_cases hown : call.1 = sender
  · rw [if_pos hown, decide_eq_true hown]
    rfl
  · rw [if_neg hown, decide_eq_false hown]
    exact List.append_nil _

theorem times_snoc (calls : List Call) (call : Call) :
    times (calls ++ [call]) = times calls ++ [call.2] :=
  List.map_append

/-- What gets through in a span of times is in the sender's log while the span
lasts. -/
theorem covers_run {inside : Instant → Prop} [DecidablePred inside]
    (hspan : Window.Span inWindow inside) (sender : PerNetworkIdentityId)
    {calls : List Call} (hcalls : (times calls).Pairwise (· ≤ ·)) :
    Covers perWindow inside (times calls)
      (passed sender (Machine.trace step new calls))
      ((Machine.state step new calls).log sender) := by
  induction calls using List.reverseRecOn with
  | nil => exact Covers.start
  | append_singleton calls call ih =>
      rw [times_snoc, Window.pairwise_snoc] at hcalls
      have hpre := ih hcalls.1
      rw [Machine.trace_snoc, Machine.state_snoc, times_snoc, passed_snoc]
      by_cases hown : call.1 = sender
      · subst hown
        rw [if_pos rfl]
        rcases admits_own (Machine.state step new calls) call.1 call.2 with
          ⟨-, hanswer, hlog⟩ | ⟨hanswer, hlog⟩
        · rw [step, hanswer, hlog]
          exact hpre.prune hspan hcalls.2
        · rw [step, hanswer, hlog]
          exact hpre.ask hspan hcalls.2
      · rw [if_neg hown, step]
        rcases admits_other (Machine.state step new calls) hown call.2 with
          hlog | hlog
        · rw [hlog]
          exact hpre.wait
        · rw [hlog]
          exact hpre.prune hspan hcalls.2

/-! ### Senders side by side -/

theorem mem_log_run {calls : List Call} {sender : PerNetworkIdentityId}
    {a : Instant} (h : a ∈ (Machine.state step new calls).log sender) :
    (sender, a) ∈ calls := by
  induction calls using List.reverseRecOn with
  | nil => cases h
  | append_singleton calls call ih =>
      rw [Machine.state_snoc, step] at h
      rw [List.mem_append, List.mem_singleton]
      by_cases hown : call.1 = sender
      · subst hown
        rcases admits_own (Machine.state step new calls) call.1 call.2 with
          ⟨-, -, hlog⟩ | ⟨-, hlog⟩
        · rw [hlog] at h
          exact .inl (ih (List.mem_of_mem_filter h))
        · rw [hlog] at h
          rcases Window.mem_ask h with h | rfl
          · exact .inl (ih h)
          · exact .inr rfl
      · rcases admits_other (Machine.state step new calls) hown call.2 with
          hlog | hlog
        · rw [hlog] at h
          exact .inl (ih h)
        · rw [hlog] at h
          exact .inl (ih (List.mem_of_mem_filter h))

/-- Whoever is left in the table after the stale ones are dropped has been
seen within the window. -/
theorem tracked_forgetStale_le (calls : List Call) (now : Instant) :
    ((Machine.state step new calls).forgetStale now).tracked ≤
      seenWithin calls now := by
  have hseen : ∀ sender,
      sender ∈ ((Machine.state step new calls).forgetStale now).seen →
        sender ∈ (calls.filter fun call => inWindow call.2 now).map
          Prod.fst := by
    intro sender h
    obtain ⟨history, h⟩ := (BTreeMap.mem_iff_exists _ _).1 h
    have hlog := log_forgetStale (Machine.state step new calls) now sender
    rw [log, h, Option.getD_some] at hlog
    rw [forgetStale, Std.ExtTreeMap.getElem?_filterMap'] at h
    obtain ⟨kept, -, h⟩ := Option.bind_eq_some_iff.1 h
    dsimp only at h
    split at h
    · cases h
    · next hsome =>
        cases h
        rw [List.isEmpty_iff] at hsome
        obtain ⟨a, ha⟩ := List.exists_mem_of_ne_nil _ hsome
        rw [hlog] at ha
        obtain ⟨ha, hlive⟩ := List.mem_filter.1 ha
        exact List.mem_map.2 ⟨(sender, a),
          List.mem_filter.2 ⟨mem_log_run ha, hlive⟩, rfl⟩
  rw [tracked, ← Std.ExtTreeMap.length_keys]
  refine (Std.ExtTreeMap.nodup_keys.subperm fun sender h => ?_).length_le
  rw [List.mem_dedup]
  exact hseen sender (Std.ExtTreeMap.mem_keys.1 h)

/-- A log of its own. -/
def ownStep (log : List Instant) (now : Instant) : Bool × List Instant :=
  ask inWindow perWindow log now

/-- The messages of one sender. -/
abbrev callsOf (sender : PerNetworkIdentityId) (calls : List Call) :
    List Call :=
  calls.filter fun call => call.1 = sender

theorem callsOf_snoc (sender : PerNetworkIdentityId) (calls : List Call)
    (call : Call) : callsOf sender (calls ++ [call]) =
      if call.1 = sender then callsOf sender calls ++ [call]
      else callsOf sender calls := by
  rw [callsOf, List.filter_append, List.filter_singleton]
  by_cases hown : call.1 = sender
  · rw [if_pos hown, decide_eq_true hown]
    rfl
  · rw [if_neg hown, decide_eq_false hown]
    exact List.append_nil _

/-- At each message of the sender fewer senders than the table has room for
have been seen within the window. -/
def Room (sender : PerNetworkIdentityId) (calls : List Call) : Prop :=
  ∀ pre now, pre ++ [(sender, now)] <+: calls →
    seenWithin pre now < maxTracked

theorem Room.of_prefix {sender : PerNetworkIdentityId} {calls pre : List Call}
    (h : Room sender calls) (hpre : pre <+: calls) : Room sender pre :=
  fun front now hfront => h front now (hfront.trans hpre)

theorem inWindow_lapses : Window.Lapses inWindow := by
  intro a now later hle h
  have h' : later.nanos - a.nanos < window := of_decide_eq_true h
  have hle' : now.nanos ≤ later.nanos := hle
  exact decide_eq_true (show now.nanos - a.nanos < window by omega)

/-- A sender with room in the table is answered as from a log of its own. -/
theorem answersTo_run {sender : PerNetworkIdentityId} {calls : List Call}
    (hcalls : (times calls).Pairwise (· ≤ ·)) (hroom : Room sender calls) :
    answersTo sender (Machine.trace step new calls) =
        Machine.answers ownStep [] (times (callsOf sender calls)) ∧
      Alike inWindow (times calls) ((Machine.state step new calls).log sender)
        (Machine.state ownStep [] (times (callsOf sender calls))) := by
  induction calls using List.reverseRecOn with
  | nil => exact ⟨rfl, Alike.refl _ _⟩
  | append_singleton calls call ih =>
      rw [times_snoc, Window.pairwise_snoc] at hcalls
      obtain ⟨hanswers, halike⟩ :=
        ih hcalls.1 (hroom.of_prefix (List.prefix_append _ _))
      rw [Machine.trace_snoc, Machine.state_snoc, answersTo_snoc, times_snoc,
        callsOf_snoc]
      by_cases hown : call.1 = sender
      · subst hown
        rw [if_pos rfl, if_pos rfl, times_snoc, Machine.state_snoc,
          Machine.answers, Machine.trace_snoc, List.map_append,
          ← Machine.answers]
        rcases admits_own (Machine.state step new calls) call.1 call.2 with
          ⟨hcrowd, -⟩ | ⟨hanswer, hlog⟩
        · have hseen := hcrowd.2.trans (tracked_forgetStale_le calls call.2)
          exact absurd hseen
            (Nat.not_le.2 (hroom calls call.2 List.prefix_rfl))
        · obtain ⟨hsame, hnext⟩ := halike.ask hcalls.2
          rw [step, hanswer, hlog, hsame, hanswers]
          exact ⟨rfl, hnext⟩
      · rw [if_neg hown, if_neg hown, step]
        refine ⟨hanswers, ?_⟩
        rcases admits_other (Machine.state step new calls) hown call.2 with
          hlog | hlog
        · rw [hlog]
          exact halike.wait
        · rw [hlog]
          exact halike.prune_left inWindow_lapses

/-- There is room for one sender. -/
theorem room_callsOf (sender : PerNetworkIdentityId) (calls : List Call) :
    Room sender (callsOf sender calls) := by
  intro pre now hpre
  have hown : ∀ call ∈ pre, call.1 = sender := by
    intro call hcall
    have hin := hpre.subset (List.mem_append_left _ hcall)
    exact of_decide_eq_true (List.mem_filter.1 hin).2
  have hone : seenWithin pre now ≤ [sender].length := by
    rw [seenWithin]
    refine ((List.nodup_dedup _).subperm fun other h => ?_).length_le
    rw [List.mem_dedup] at h
    obtain ⟨call, hcall, rfl⟩ := List.mem_map.1 h
    rw [hown call (List.mem_of_mem_filter hcall)]
    exact List.mem_singleton_self sender
  exact hone.trans_lt (show 1 < maxTracked by decide)

/-- What a sender with room in the table is answered depends on its own
messages alone. -/
theorem answersTo_eq {sender : PerNetworkIdentityId} {calls : List Call}
    (hcalls : (times calls).Pairwise (· ≤ ·)) (hroom : Room sender calls) :
    answersTo sender (Machine.trace step new calls) =
      Machine.answers step new (callsOf sender calls) := by
  have hsub : (times (callsOf sender calls)).Pairwise (· ≤ ·) :=
    hcalls.sublist (List.filter_sublist.map Prod.snd)
  have halone := (answersTo_run hsub (room_callsOf sender calls)).1
  have hall : answersTo sender
      (Machine.trace step new (callsOf sender calls)) =
        Machine.answers step new (callsOf sender calls) := by
    rw [answersTo, Machine.answers, List.filter_eq_self.2]
    intro e he
    have hcall : e.1 ∈ callsOf sender calls := by
      have hinput := List.mem_map_of_mem (f := Prod.fst) he
      rwa [Machine.map_fst_trace] at hinput
    exact (List.mem_filter.1 hcall).2
  rw [(answersTo_run hcalls hroom).1, ← hall, halone, callsOf, callsOf,
    List.filter_filter]
  simp only [Bool.and_self]

end DirectMeter

/-- Timestamps by their milliseconds. -/
instance : Preorder Timestamp where
  le a b := a.millis ≤ b.millis
  le_refl a := Int64.le_refl a.millis
  le_trans _ _ _ := Int64.le_trans

/-! ## Audits -/

/-- What is done to a node's store of observations. -/
inductive AuditCall (C : Crypto) (validKey : Bytes 32 → Bool) where
  | recordVerified (peer : PerNetworkIdentityId)
  | recordFailed (peer : PerNetworkIdentityId)
  | respondToAudit (request : AuditRequest)
      (responder : PerNetworkIdentity C validKey) (state : GovernanceState)
      (now : Timestamp)

variable {C : Crypto} {validKey : Bytes 32 → Bool}

/-- When an audit was asked for. -/
def AuditCall.time : AuditCall C validKey → Option Timestamp
  | .respondToAudit _ _ _ now => some now
  | _ => none

namespace AuditedObservations

def step (policy : AuditRateLimit) (o : AuditedObservations) :
    AuditCall C validKey →
      Option (Except AuditError AuditResponse) × AuditedObservations
  | .recordVerified peer => (none, o.recordVerified peer)
  | .recordFailed peer => (none, o.recordFailed peer)
  | .respondToAudit request responder state now =>
      let result := o.respondToAudit request responder state now policy
      (some result.1, result.2)

/-- When the requester was given an answer, if this is a call that gave
one. -/
def answeredAt (requester : PerNetworkIdentityId) :
    AuditCall C validKey × Option (Except AuditError AuditResponse) →
      Option Timestamp
  | (.respondToAudit request _ _ now, some (.ok _)) =>
      if request.requester = requester then some now else none
  | _ => none

/-- When a requester's audits were answered. -/
def history (o : AuditedObservations) (requester : PerNetworkIdentityId) :
    List Timestamp :=
  o.auditLog[requester]?.getD []

@[simp] theorem history_recordVerified (o : AuditedObservations)
    (peer requester : PerNetworkIdentityId) :
    (o.recordVerified peer).history requester = o.history requester :=
  rfl

@[simp] theorem history_recordFailed (o : AuditedObservations)
    (peer requester : PerNetworkIdentityId) :
    (o.recordFailed peer).history requester = o.history requester :=
  rfl

/-- The test by which histories are retained. -/
def inWindow (policy : AuditRateLimit) (earlier now : Timestamp) : Bool :=
  decide (now.millisSince earlier ≤ policy.windowMillis)

variable {policy : AuditRateLimit}

theorem history_insert (o : AuditedObservations)
    (requester other : PerNetworkIdentityId) (log : List Timestamp) :
    history { o with auditLog := o.auditLog.insert requester log } other =
      if requester = other then log else o.history other := by
  rw [history, history, BTreeMap.getElem?_insert_ite]
  split <;> rfl

/-- A history within the limit is not cut short by the cast of its length. -/
theorem limit_le_iff {log : List Timestamp}
    (h : log.length ≤ policy.maxRequestsPerWindow.toNat) :
    policy.maxRequestsPerWindow ≤ UInt32.ofNat log.length ↔
      policy.maxRequestsPerWindow.toNat ≤ log.length := by
  have hlimit := policy.maxRequestsPerWindow.toNat_lt
  rw [UInt32.le_iff_toNat_le, UInt32.toNat_ofNat_of_lt' (h.trans_lt hlimit)]

/-- A request is refused with nothing changed, or answered from the
requester's history. -/
theorem respondToAudit_own (o : AuditedObservations) (request : AuditRequest)
    (responder : PerNetworkIdentity C validKey) (state : GovernanceState)
    (now : Timestamp)
    (h : (o.history request.requester).length ≤
      policy.maxRequestsPerWindow.toNat) :
    (∃ e, o.respondToAudit request responder state now policy =
        (.error e, o)) ∨
      (o.respondToAudit request responder state now policy).1.toBool =
          (ask (inWindow policy) policy.maxRequestsPerWindow.toNat
            (o.history request.requester) now).1 ∧
        (o.respondToAudit request responder state now policy).2.history
            request.requester =
          (ask (inWindow policy) policy.maxRequestsPerWindow.toNat
            (o.history request.requester) now).2 := by
  have hkept := (Window.length_prune_le (inWindow policy)
    (o.history request.requester) now).trans h
  rw [respondToAudit]
  cases request.verify C with
  | error e => exact .inl ⟨e, rfl⟩
  | ok _ =>
      dsimp only
      split
      · exact .inl ⟨_, rfl⟩
      · have hkeep : (o.auditLog[request.requester]?.getD []).filter
            (fun earlier => decide
              (now.millisSince earlier ≤ policy.windowMillis)) =
            prune (inWindow policy) (o.history request.requester) now := rfl
        rw [hkeep, ask]
        refine .inr ?_
        by_cases hroom : (prune (inWindow policy)
            (o.history request.requester) now).length <
              policy.maxRequestsPerWindow.toNat
        · rw [if_pos hroom,
            if_neg (mt (limit_le_iff hkept).1 (Nat.not_le.2 hroom))]
          exact ⟨rfl, (history_insert o _ _ _).trans (if_pos rfl)⟩
        · rw [if_neg hroom,
            if_pos ((limit_le_iff hkept).2 (Nat.not_lt.1 hroom))]
          exact ⟨rfl, (history_insert o _ _ _).trans (if_pos rfl)⟩

/-- The histories of the other requesters are left alone. -/
theorem respondToAudit_other (o : AuditedObservations)
    (request : AuditRequest) (responder : PerNetworkIdentity C validKey)
    (state : GovernanceState) (now : Timestamp) (policy : AuditRateLimit)
    {other : PerNetworkIdentityId} (hne : request.requester ≠ other) :
    (o.respondToAudit request responder state now policy).2.history other =
      o.history other := by
  rw [respondToAudit]
  cases request.verify C with
  | error e => rfl
  | ok _ =>
      dsimp only
      split
      · rfl
      · split <;> exact (history_insert o _ _ _).trans (if_neg hne)

/-- When each audit was asked for. -/
abbrev times (calls : List (AuditCall C validKey)) : List Timestamp :=
  calls.filterMap AuditCall.time

/-- When the requester's audits were answered. -/
abbrev answered (requester : PerNetworkIdentityId)
    (trace : List (AuditCall C validKey ×
      Option (Except AuditError AuditResponse))) : List Timestamp :=
  trace.filterMap (answeredAt requester)

theorem times_snoc (calls : List (AuditCall C validKey))
    (request : AuditRequest) (responder : PerNetworkIdentity C validKey)
    (state : GovernanceState) (now : Timestamp) :
    times (calls ++ [.respondToAudit request responder state now]) =
      times calls ++ [now] :=
  List.filterMap_append

theorem answered_snoc (requester : PerNetworkIdentityId)
    (trace : List (AuditCall C validKey ×
      Option (Except AuditError AuditResponse)))
    (request : AuditRequest) (responder : PerNetworkIdentity C validKey)
    (state : GovernanceState) (now : Timestamp)
    (answer : Except AuditError AuditResponse) :
    answered requester (trace ++
        [(.respondToAudit request responder state now, some answer)]) =
      if request.requester = requester then
        record (answered requester trace) now answer.toBool
      else answered requester trace := by
  rw [answered, List.filterMap_append]
  by_cases hown : request.requester = requester
  · rw [if_pos hown, record]
    cases answer <;> simp [answeredAt, hown, Except.toBool]
  · rw [if_neg hown]
    cases answer <;> simp [answeredAt, hown]

/-- What is answered in a span of times is in the requester's history while
the span lasts, and no history outgrows the limit. -/
theorem covers_run {inside : Timestamp → Prop} [DecidablePred inside]
    (hspan : Window.Span (inWindow policy) inside)
    (requester : PerNetworkIdentityId) {calls : List (AuditCall C validKey)}
    (hcalls : (times calls).Pairwise (· ≤ ·)) :
    Covers policy.maxRequestsPerWindow.toNat inside (times calls)
        (answered requester (Machine.trace (step policy) new calls))
        ((Machine.state (step policy) new calls).history requester) ∧
      ((Machine.state (step policy) new calls).history requester).length ≤
        policy.maxRequestsPerWindow.toNat := by
  induction calls using List.reverseRecOn with
  | nil => exact ⟨Covers.start, Nat.zero_le _⟩
  | append_singleton calls call ih =>
      rw [Machine.trace_snoc, Machine.state_snoc]
      cases call with
      | recordVerified peer =>
          have hsame := ih (by
            simpa [List.filterMap_cons, AuditCall.time] using hcalls)
          simpa [List.filterMap_cons, AuditCall.time, answeredAt, step]
            using hsame
      | recordFailed peer =>
          have hsame := ih (by
            simpa [List.filterMap_cons, AuditCall.time] using hcalls)
          simpa [List.filterMap_cons, AuditCall.time, answeredAt, step]
            using hsame
      | respondToAudit request responder state now =>
          rw [times_snoc, Window.pairwise_snoc] at hcalls
          obtain ⟨hpre, hlen⟩ := ih hcalls.1
          rw [times_snoc, step, answered_snoc]
          by_cases hown : request.requester = requester
          · subst hown
            rw [if_pos rfl]
            rcases respondToAudit_own (Machine.state (step policy) new calls)
                request responder state now hlen with
              ⟨e, hrefused⟩ | ⟨hanswer, hhistory⟩
            · rw [hrefused]
              exact ⟨hpre.wait, hlen⟩
            · dsimp only
              rw [hanswer, hhistory]
              exact ⟨hpre.ask hspan hcalls.2, Window.length_ask_le hlen now⟩
          · dsimp only
            rw [if_neg hown, respondToAudit_other _ _ _ _ _ _ hown]
            exact ⟨hpre.wait, hlen⟩

/-- Within a closed interval as long as the window no difference wraps. -/
theorem span_interval (policy : AuditRateLimit) (start : ℤ) :
    Window.Span (inWindow policy) fun t => start ≤ t.millis.toInt ∧
      t.millis.toInt ≤ start + policy.windowMillis.toInt := by
  rintro a now b ⟨ha, -⟩ ⟨-, hb⟩ hle hle'
  have hfirst := Int64.le_iff_toInt_le.1 hle
  have hlast := Int64.le_iff_toInt_le.1 hle'
  have hwindow := policy.windowMillis.toInt_lt
  refine decide_eq_true (Int64.le_iff_toInt_le.2 ?_)
  rw [Timestamp.millisSince_toInt (by omega)]
  omega

end AuditedObservations

namespace DirectMeter

theorem span_interval (start : ℕ) :
    Window.Span inWindow fun t =>
      start ≤ t.nanos ∧ t.nanos < start + window := by
  rintro a now b ⟨ha, -⟩ ⟨-, hb⟩ hle hle'
  have hfirst : a.nanos ≤ now.nanos := hle
  have hlast : now.nanos ≤ b.nanos := hle'
  exact decide_eq_true (show now.nanos - a.nanos < window by omega)

end DirectMeter

/-! ## Every window -/

/-- Of messages that come in order of time, at most `perWindow` of a sender
get through in any minute, the table never outgrows `maxTracked`, and a sender
there is room for is answered as if nobody else had sent anything. Of audits
asked for in order of time, a requester is answered at most as often as the
policy says in any closed interval as long as its window. -/
theorem sliding_windows_hold (C : Crypto) (validKey : Bytes 32 → Bool)
    (policy : AuditRateLimit) {calls : List DirectMeter.Call}
    (hcalls : (calls.map Prod.snd).Pairwise fun a b => a.nanos ≤ b.nanos)
    {audits : List (AuditCall C validKey)}
    (haudits : (audits.filterMap AuditCall.time).Pairwise
      fun a b => a.millis ≤ b.millis) :
    (∀ sender start, ((DirectMeter.passed sender
        (Machine.trace DirectMeter.step .new calls)).filter fun t =>
          start ≤ t.nanos ∧ t.nanos < start + DirectMeter.window).length ≤
        DirectMeter.perWindow) ∧
      (∀ anyCalls, (Machine.state DirectMeter.step .new anyCalls).tracked ≤
        DirectMeter.maxTracked) ∧
      (∀ sender,
        (∀ pre now, pre ++ [(sender, now)] <+: calls →
          DirectMeter.seenWithin pre now < DirectMeter.maxTracked) →
        DirectMeter.answersTo sender
            (Machine.trace DirectMeter.step .new calls) =
          Machine.answers DirectMeter.step .new
            (calls.filter fun call => call.1 = sender)) ∧
      ∀ requester (start : ℤ), ((AuditedObservations.answered requester
        (Machine.trace (AuditedObservations.step policy) .new
          audits)).filter fun t => start ≤ t.millis.toInt ∧
            t.millis.toInt ≤ start + policy.windowMillis.toInt).length ≤
        policy.maxRequestsPerWindow.toNat := by
  refine ⟨fun sender start => ?_, DirectMeter.tracked_state_le,
    fun sender hroom => DirectMeter.answersTo_eq hcalls hroom,
    fun requester start => ?_⟩
  · exact (DirectMeter.covers_run (DirectMeter.span_interval start) sender
      hcalls).length_le
  · exact (AuditedObservations.covers_run
      (AuditedObservations.span_interval policy start) requester
      haudits).1.length_le

/-! ### Two senders and an auditor -/

namespace Sample

/-- Identity 1 sends twice, with a message of identity 2 in between. -/
def directCalls : List DirectMeter.Call :=
  [(identity 1, ⟨0⟩), (identity 2, ⟨1⟩), (identity 1, ⟨2⟩)]

/-- A node that is audited. -/
def observer (n : ℕ) : PerNetworkIdentity .sample (fun _ => true) where
  id := identity n
  sign _ := signature n 0
  valid := rfl
  verifies payload := verify_first n payload

/-- Identity 1 audits it twice, half a second apart. -/
def auditCalls (state : GovernanceState) :
    List (AuditCall .sample fun _ => true) :=
  let request : AuditRequest :=
    ⟨identity 1, identity 3, ⟨0⟩, signature 1 0⟩
  [.recordFailed (identity 3),
    .respondToAudit request (observer 2) state ⟨0⟩,
    .respondToAudit request (observer 2) state ⟨500⟩]

end Sample

/-- The founder may audit, and is answered no more than once a second. -/
theorem sliding_windows_hold_founder : ∃ state : GovernanceState,
    state.identityHolds (Sample.identity 1) .auditReputation = true ∧
      ((AuditedObservations.answered (Sample.identity 1)
        (Machine.trace (AuditedObservations.step ⟨1, 1000⟩) .new
          (Sample.auditCalls state))).filter fun t =>
            (0 : ℤ) ≤ t.millis.toInt ∧ t.millis.toInt ≤ 0 + 1000).length ≤ 1 ∧
      DirectMeter.answersTo (Sample.identity 1)
          (Machine.trace DirectMeter.step .new Sample.directCalls) =
        Machine.answers DirectMeter.step .new
          [(Sample.identity 1, ⟨0⟩), (Sample.identity 1, ⟨2⟩)] := by
  have hcheck : Run.okAnd (GovernanceState.genesis .sample
      (Sample.genesis 0 .conservativeDefault [])) (fun state =>
        state.identityHolds (Sample.identity 1) .auditReputation) = true := by
    decide +kernel
  obtain ⟨state, -, hholds⟩ := Run.okAnd_iff.1 hcheck
  have hcalls : (Sample.directCalls.map Prod.snd).Pairwise fun a b =>
      a.nanos ≤ b.nanos := by
    decide
  have haudits : ((Sample.auditCalls state).filterMap
      AuditCall.time).Pairwise fun a b => a.millis ≤ b.millis := by
    simp [Sample.auditCalls, AuditCall.time, List.filterMap_cons]
  obtain ⟨-, -, halone, haudit⟩ := sliding_windows_hold .sample
    (fun _ => true) ⟨1, 1000⟩ hcalls haudits
  refine ⟨state, hholds, haudit (Sample.identity 1) 0,
    halone (Sample.identity 1) ?_⟩
  intro pre now hpre
  have hlen : pre.length ≤ 3 := by
    have hle := hpre.length_le
    rw [List.length_append] at hle
    exact (Nat.le_add_right _ _).trans hle
  have hseen : DirectMeter.seenWithin pre now ≤ pre.length :=
    (List.dedup_sublist _).length_le.trans (by
      rw [List.length_map]
      exact List.length_filter_le _ _)
  exact (hseen.trans hlen).trans_lt (show 3 < DirectMeter.maxTracked by decide)

end Intranet
