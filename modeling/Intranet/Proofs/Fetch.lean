import Intranet.Lib.Trace
import Intranet.Ref.Fetch
import Intranet.Ref.Sample

/-!
# The fetch plan keeps its books

Whatever a call does to a plan, it does as a sequence of small moves: one
chunk changes its state, or the budgets change and no chunk does. `Move` lists
what a move can be, with the event it leaves behind; each call is read once as
a run of moves, and every property of plans is then a case analysis over the
moves instead of seven calls with their loops.

The counter of requests in flight, the limit and the candidates of a chunk
that can be asked for are one invariant, `Books`. What a plan asks for is read
off the events: per chunk, `pending` is what is left of the last answer of the
lookup, and two totals over the plan, the chunks no answer has come for and
the candidates left, bound what a run can still ask for.
-/

namespace Intranet

namespace ChunkState

/-- One for a chunk in flight. -/
def flight (s : ChunkState) : ℕ := if s.isInFlight then 1 else 0

/-- One for a chunk the lookup has not answered for. -/
def awaited (s : ChunkState) : ℕ := if s.isAwaiting then 1 else 0

/-- Neither asked for at the moment nor settled. -/
def isPending : ChunkState → Bool
  | awaitingProviders => true
  | ready .. => true
  | _ => false

/-- How many sources are left to ask. -/
def credit (s : ChunkState) : ℕ := s.candidates.length

end ChunkState

namespace FetchPlan

open ChunkState

/-! ## Moves -/

/-- What a move leaves in the trace. -/
inductive Event where
  | wanted (cid : Cid)
  | answered (cid : Cid) (ordered : List PerNetworkIdentityId)
  | issued (cid : Cid) (source : PerNetworkIdentityId)
  | charged (cid : Cid) (bytes : ℕ)

namespace Event

def isWanted : Event → Bool
  | .wanted _ => true
  | _ => false

def isAnswered : Event → Bool
  | .answered .. => true
  | _ => false

def isCharged : Event → Bool
  | .charged .. => true
  | _ => false

/-- The request an event stands for. -/
def request : Event → Option (Cid × PerNetworkIdentityId)
  | .issued cid source => some (cid, source)
  | _ => none

/-- The answer an event stands for, if it is one for `cid`. -/
def answerFor (cid : Cid) : Event → Option (List PerNetworkIdentityId)
  | .answered a ordered => if a = cid then some ordered else none
  | _ => none

end Event

/-- The plan after one chunk changed its state. -/
def put (plan : FetchPlan) (cid : Cid) (state : ChunkState) (inflight : ℕ) :
    FetchPlan :=
  { plan with chunks := plan.chunks.insert cid state, inflight }

/-- The state a lookup's answer puts a chunk into. -/
def answerState (ordered : List PerNetworkIdentityId) (holders : UInt32) :
    ChunkState :=
  if ordered.isEmpty then .exhausted else .ready ordered holders

/-- Whether nobody wants a chunk without a budget or under one that has not
run out. -/
def Unwanted (plan : FetchPlan) (cid : Cid) : Prop :=
  plan.unbudgeted.contains cid = false ∧
    ∀ b ∈ plan.budgets, b.chunks.contains cid = true → b.exceeded = true

/-- What a request that was in flight can leave its chunk in. -/
def Lands (plan : FetchPlan) (cid : Cid) (cs : List PerNetworkIdentityId)
    (n : UInt32) (t : ChunkState) : Prop :=
  t = .done ∨ (t = .overBudget ∧ plan.Unwanted cid) ∨
    (t = .exhausted ∧ cs = []) ∨ (t = .ready cs n ∧ cs ≠ [])

inductive Move : FetchPlan → List Event → FetchPlan → Prop
  | wanted {plan : FetchPlan} (cid : Cid)
      (h : plan.chunks[cid]? = none ∨ plan.chunks[cid]? = some .overBudget) :
      Move plan [.wanted cid] (plan.put cid .awaitingProviders plan.inflight)
  | answered {plan : FetchPlan} (cid : Cid)
      (ordered : List PerNetworkIdentityId) (holders : UInt32)
      (h : plan.chunks[cid]? = some .awaitingProviders) :
      Move plan [.answered cid ordered]
        (plan.put cid (answerState ordered holders) plan.inflight)
  | issued {plan : FetchPlan} (cid : Cid) (source : PerNetworkIdentityId)
      (rest : List PerNetworkIdentityId) (holders : UInt32)
      (h : plan.chunks[cid]? = some (.ready (source :: rest) holders))
      (hroom : plan.inflight < plan.concurrency) :
      Move plan [.issued cid source]
        (plan.put cid (.inFlight rest holders) (plan.inflight + 1))
  | abandoned {plan : FetchPlan} (cid : Cid) (s : ChunkState)
      (h : plan.chunks[cid]? = some s) (hs : s.isPending = true)
      (hunwanted : plan.Unwanted cid) :
      Move plan [] (plan.put cid .overBudget plan.inflight)
  | landed {plan : FetchPlan} (cid : Cid) (cs : List PerNetworkIdentityId)
      (n : UInt32) (t : ChunkState)
      (h : plan.chunks[cid]? = some (.inFlight cs n))
      (ht : plan.Lands cid cs n t) :
      Move plan [] (plan.put cid t (plan.inflight - 1))
  | freed {plan : FetchPlan} (cid : Cid) :
      Move plan [] { plan with unbudgeted := plan.unbudgeted.insert cid }
  | budgeted {plan : FetchPlan} (b : Budget) :
      Move plan [] { plan with budgets := plan.budgets ++ [b] }
  | charged {plan : FetchPlan} (cid : Cid) (bytes : ℕ) :
      Move plan [.charged cid bytes] { plan with
        budgets := plan.budgets.map fun b => b.charge cid bytes }

/-- Runs of moves. -/
abbrev Moves := Trace Move

/-! ## Each call is a run of moves -/

theorem moves_want (plan : FetchPlan) (cid : Cid) :
    ∃ es, (∀ e ∈ es, e = .wanted cid) ∧ Moves plan es (plan.want cid) := by
  unfold want
  split
  · next hs => exact ⟨[.wanted cid], by simp, .single (.wanted cid (.inl hs))⟩
  · next hs => exact ⟨[.wanted cid], by simp, .single (.wanted cid (.inr hs))⟩
  · exact ⟨[], by simp, .nil plan⟩

theorem moves_foldl_want {f : FetchPlan → Cid → FetchPlan}
    (hround : ∀ plan cid, ∃ es, (∀ e ∈ es, e.isWanted = true) ∧
      Moves plan es (f plan cid)) (cids : List Cid) (plan : FetchPlan) :
    ∃ es, (∀ e ∈ es, e.isWanted = true) ∧
      Moves plan es (cids.foldl f plan) := by
  induction cids generalizing plan with
  | nil => exact ⟨[], by simp, .nil plan⟩
  | cons cid cids ih =>
      obtain ⟨es, hes, hfirst⟩ := hround plan cid
      obtain ⟨fs, hfs, hrest⟩ := ih (f plan cid)
      refine ⟨es ++ fs, ?_, hfirst.append hrest⟩
      intro e he
      rcases List.mem_append.1 he with he | he
      · exact hes e he
      · exact hfs e he

theorem wanted_round (plan : FetchPlan) (cid : Cid) :
    ∃ es, (∀ e ∈ es, e.isWanted = true) ∧ Moves plan es (plan.want cid) := by
  obtain ⟨es, hes, hmoves⟩ := moves_want plan cid
  refine ⟨es, ?_, hmoves⟩
  intro e he
  rw [hes e he]
  rfl

theorem moves_extend (plan : FetchPlan) (cids : List Cid) :
    ∃ es, (∀ e ∈ es, e.isWanted = true) ∧
      Moves plan es (plan.extend cids) := by
  refine moves_foldl_want ?_ cids plan
  intro plan cid
  obtain ⟨es, hes, hmoves⟩ := wanted_round
    { plan with unbudgeted := plan.unbudgeted.insert cid } cid
  exact ⟨es, hes,
    (Trace.single (.freed cid)).append hmoves⟩

theorem moves_extendWithin (plan : FetchPlan) (object : Cid) (cids : List Cid)
    (bytes : ℕ) :
    ∃ es, (∀ e ∈ es, e.isWanted = true) ∧
      Moves plan es (plan.extendWithin object cids bytes) := by
  obtain ⟨es, hes, hmoves⟩ := moves_foldl_want wanted_round
    (Std.ExtTreeSet.ofList cids compare : BTreeSet Cid).toList plan
  refine ⟨es, hes, ?_⟩
  have hrun : Moves plan (es ++ []) (plan.extendWithin object cids bytes) :=
    hmoves.append (.single (.budgeted _))
  rwa [List.append_nil] at hrun

theorem moves_recordProviders (plan : FetchPlan) (cid : Cid)
    (providers fallback : List PerNetworkIdentityId) (ledger : CapabilityLedger)
    (observations : ReliabilityObservations) (threshold : Float) :
    Moves plan
      (if plan.chunks[cid]? = some .awaitingProviders then
        [.answered cid
          (orderedAnswer providers fallback ledger observations threshold)]
      else [])
      (plan.recordProviders cid providers fallback ledger observations
        threshold) := by
  split
  · next hs =>
      unfold recordProviders
      rw [hs]
      exact .single (.answered cid _ _ hs)
  · next hs =>
      unfold recordProviders
      split
      · next hawait => exact absurd hawait hs
      · exact .nil plan

theorem moves_issue (order : List Cid) (plan : FetchPlan) :
    Moves plan ((issue order plan).1.map fun r => .issued r.1 r.2)
      (issue order plan).2 := by
  induction order generalizing plan with
  | nil => exact .nil plan
  | cons cid rest ih =>
      unfold issue
      split
      · exact .nil plan
      · next hroom =>
          split
          · next source remaining holders hs =>
              exact .cons (.issued cid source remaining holders hs
                (Nat.lt_of_not_le hroom)) (ih _)
          · exact ih plan

theorem unwanted_of_doomed {plan : FetchPlan} {cid : Cid}
    (h : plan.doomed cid = true) : plan.Unwanted cid := by
  unfold doomed at h
  rw [Bool.and_eq_true, Bool.and_eq_true, Bool.not_eq_true'] at h
  obtain ⟨⟨hfree, -⟩, hall⟩ := h
  refine ⟨hfree, fun b hb hcid => ?_⟩
  exact List.all_eq_true.1 hall b (List.mem_filter.2 ⟨hb, hcid⟩)

theorem moves_abandon (plan : FetchPlan) (cid : Cid)
    (hunwanted : plan.Unwanted cid) :
    Moves plan [] { plan with chunks := abandon plan.chunks cid } := by
  unfold abandon
  split
  · next hs => exact .single (.abandoned cid _ hs rfl hunwanted)
  · next hs => exact .single (.abandoned cid _ hs rfl hunwanted)
  · exact .nil plan

/-- Abandoning a list of chunks that nobody else wants. -/
theorem moves_foldl_abandon (doomed : List Cid) (plan : FetchPlan)
    (hdoomed : ∀ cid ∈ doomed, plan.Unwanted cid) :
    Moves plan [] { plan with chunks := doomed.foldl abandon plan.chunks } := by
  induction doomed generalizing plan with
  | nil => exact .nil plan
  | cons cid doomed ih =>
      refine (moves_abandon plan cid (hdoomed cid List.mem_cons_self)).append ?_
      refine ih { plan with chunks := abandon plan.chunks cid } ?_
      exact fun a ha => hdoomed a (List.mem_cons_of_mem _ ha)

theorem moves_abandonExhaustedBudgets (plan : FetchPlan) :
    Moves plan [] plan.abandonExhaustedBudgets := by
  refine moves_foldl_abandon _ plan fun cid hcid => ?_
  rw [Std.ExtTreeSet.mem_toList, Std.ExtTreeSet.mem_ofList,
    List.contains_eq_mem, decide_eq_true_eq, List.mem_filter] at hcid
  exact unwanted_of_doomed hcid.2

/-- Abandoning leaves a request in flight where it is. -/
theorem foldl_abandon_inFlight {cid : Cid} {cs : List PerNetworkIdentityId}
    {n : UInt32} (doomed : List Cid) (chunks : BTreeMap Cid ChunkState)
    (h : chunks[cid]? = some (.inFlight cs n)) :
    (doomed.foldl abandon chunks)[cid]? = some (.inFlight cs n) := by
  induction doomed generalizing chunks with
  | nil => exact h
  | cons a doomed ih =>
      refine ih _ ?_
      unfold abandon
      split
      · next hs =>
          rw [BTreeMap.getElem?_insert_ite, if_neg, h]
          intro hac
          rw [hac, h] at hs
          cases hs
      · next hs =>
          rw [BTreeMap.getElem?_insert_ite, if_neg, h]
          intro hac
          rw [hac, h] at hs
          cases hs
      · exact h

/-- The plan between charging the budgets and the verdict on the chunk. -/
def afterCharge (plan : FetchPlan) (cid : Cid) (bytes : ℕ) : FetchPlan :=
  let charged := { plan with
    budgets := plan.budgets.map fun b => b.charge cid bytes }
  if plan.budgets.any fun b => b.runsOut cid bytes then
    charged.abandonExhaustedBudgets
  else charged

/-- Whether some caller has room for the bytes. -/
def room (plan : FetchPlan) (cid : Cid) (bytes : ℕ) : Bool :=
  plan.unbudgeted.contains cid ||
    plan.budgets.any fun b => b.hasRoom cid bytes

theorem afterCharge_inFlight {plan : FetchPlan} {a : Cid}
    {cs : List PerNetworkIdentityId} {n : UInt32} (cid : Cid) (bytes : ℕ)
    (h : plan.chunks[a]? = some (.inFlight cs n)) :
    (plan.afterCharge cid bytes).chunks[a]? = some (.inFlight cs n) := by
  unfold afterCharge
  simp only
  split
  · exact foldl_abandon_inFlight _ _ h
  · exact h

/-- What `admitChunk` does with a chunk that is in flight. -/
theorem admit_inFlight {plan : FetchPlan} {cid : Cid}
    {cs : List PerNetworkIdentityId} {n : UInt32} (bytes : ℕ)
    (h : plan.chunks[cid]? = some (.inFlight cs n)) :
    plan.admitChunk cid bytes =
      if plan.room cid bytes then (true, plan.afterCharge cid bytes)
      else (false, (plan.afterCharge cid bytes).put cid .overBudget
        ((plan.afterCharge cid bytes).inflight - 1)) := by
  have hleft := afterCharge_inFlight cid bytes h
  unfold admitChunk
  rw [h]
  simp only
  change (if plan.room cid bytes then (true, plan.afterCharge cid bytes) else _) = _
  split
  · rfl
  · simp only [afterCharge] at hleft
    simp only [hleft]
    rfl

theorem admit_not_inFlight {plan : FetchPlan} {cid : Cid} (bytes : ℕ)
    (h : ∀ cs n, plan.chunks[cid]? ≠ some (.inFlight cs n)) :
    plan.admitChunk cid bytes = (true, plan) := by
  unfold admitChunk
  split
  · next hs => exact absurd hs (h _ _)
  · rfl

theorem moves_afterCharge (plan : FetchPlan) (cid : Cid) (bytes : ℕ) :
    Moves plan [.charged cid bytes] (plan.afterCharge cid bytes) := by
  have hcharged : Moves plan [.charged cid bytes] { plan with
      budgets := plan.budgets.map fun b => b.charge cid bytes } :=
    .single (.charged cid bytes)
  unfold afterCharge
  simp only
  split
  · exact hcharged.append (moves_abandonExhaustedBudgets _)
  · exact hcharged

theorem afterCharge_budgets (plan : FetchPlan) (cid : Cid) (bytes : ℕ) :
    (plan.afterCharge cid bytes).budgets =
      plan.budgets.map fun b => b.charge cid bytes := by
  unfold afterCharge
  simp only
  split <;> rfl

theorem afterCharge_unbudgeted (plan : FetchPlan) (cid : Cid) (bytes : ℕ) :
    (plan.afterCharge cid bytes).unbudgeted = plan.unbudgeted := by
  unfold afterCharge
  simp only
  split <;> rfl

/-- A chunk nobody had room for is wanted by nobody after the charge. -/
theorem unwanted_of_no_room {plan : FetchPlan} {cid : Cid} {bytes : ℕ}
    (h : plan.room cid bytes = false) :
    (plan.afterCharge cid bytes).Unwanted cid := by
  unfold room at h
  rw [Bool.or_eq_false_iff] at h
  obtain ⟨hfree, hroom⟩ := h
  constructor
  · rw [afterCharge_unbudgeted]
    exact hfree
  · rw [afterCharge_budgets]
    intro b hb hcid
    obtain ⟨old, hold, rfl⟩ := List.mem_map.1 hb
    have hfull := List.any_eq_false.1 hroom old hold
    unfold Budget.hasRoom at hfull
    unfold Budget.charge at hcid ⊢
    cases htakes : old.takesPart cid with
    | false =>
        simp only [htakes, Bool.not_false, if_true] at hcid ⊢
        simpa [Budget.takesPart, hcid] using htakes
    | true =>
        have hbig : ¬ bytes ≤ old.remaining := by simpa [htakes] using hfull
        simp [hbig]

theorem moves_admitChunk (plan : FetchPlan) (cid : Cid) (bytes : ℕ) :
    ∃ es, (∀ e ∈ es, e = .charged cid bytes) ∧
      Moves plan es (plan.admitChunk cid bytes).2 := by
  by_cases h : ∃ cs n, plan.chunks[cid]? = some (.inFlight cs n)
  · obtain ⟨cs, n, hs⟩ := h
    refine ⟨[.charged cid bytes], by simp, ?_⟩
    rw [admit_inFlight bytes hs]
    split
    · exact moves_afterCharge plan cid bytes
    · next hroom =>
        refine (moves_afterCharge plan cid bytes).append (.single ?_)
        exact .landed cid cs n _ (afterCharge_inFlight cid bytes hs)
          (.inr (.inl ⟨rfl, unwanted_of_no_room (by simpa using hroom)⟩))
  · rw [admit_not_inFlight bytes fun cs n hs => h ⟨cs, n, hs⟩]
    exact ⟨[], by simp, .nil plan⟩

theorem moves_recordReceived (plan : FetchPlan) (cid : Cid) :
    Moves plan [] (plan.recordReceived cid) := by
  unfold recordReceived
  split
  · next hs => exact .single (.landed cid _ _ _ hs (.inl rfl))
  · exact .nil plan

theorem moves_recordFailed (plan : FetchPlan) (cid : Cid) :
    Moves plan [] (plan.recordFailed cid) := by
  unfold recordFailed
  split
  · next cs n hs =>
      refine .single (.landed cid cs n _ hs ?_)
      split
      · next hdoomed => exact .inr (.inl ⟨rfl, unwanted_of_doomed hdoomed⟩)
      · split
        · next hnil => exact .inr (.inr (.inl ⟨rfl, List.isEmpty_iff.1 hnil⟩))
        · next hnil =>
            exact .inr (.inr (.inr ⟨rfl, fun heq => hnil (by rw [heq]; rfl)⟩))
  · exact .nil plan

/-! ## The books -/

/-- The counter agrees with the states and with the limit, and a chunk that
can be asked for has somebody to ask. -/
structure Books (plan : FetchPlan) : Prop where
  counted : plan.inflight = BTreeMap.total flight plan.chunks
  bounded : plan.inflight ≤ plan.concurrency
  positive : 0 < plan.concurrency
  offered : ∀ (cid : Cid) (cs : List PerNetworkIdentityId) (n : UInt32),
    plan.chunks[cid]? = some (.ready cs n) → cs ≠ []

/-- The weight a chunk has before it changes: nothing when it is new. -/
def weightAt (f : ChunkState → ℕ) (plan : FetchPlan) (cid : Cid) : ℕ :=
  plan.chunks[cid]?.elim 0 f

theorem total_put (f : ChunkState → ℕ) (plan : FetchPlan) (cid : Cid)
    (t : ChunkState) (inflight : ℕ) :
    BTreeMap.total f (plan.put cid t inflight).chunks + plan.weightAt f cid =
      BTreeMap.total f plan.chunks + f t := by
  unfold weightAt
  cases hs : plan.chunks[cid]? with
  | none =>
      have hnew := BTreeMap.total_insert_new (f := f) hs t
      simp only [put, hnew, Option.elim]
      omega
  | some s => exact BTreeMap.total_insert_of_getElem? hs t

/-- One chunk changes its state and the counter follows. -/
theorem Books.put {plan : FetchPlan} (h : plan.Books) (cid : Cid)
    (t : ChunkState) (inflight : ℕ)
    (hoffered : ∀ cs n, t = .ready cs n → cs ≠ [])
    (hcount : inflight + plan.weightAt flight cid = plan.inflight + flight t)
    (hle : inflight ≤ plan.concurrency) : (plan.put cid t inflight).Books where
  counted := by
    have htotal := total_put flight plan cid t inflight
    have hcounted := h.counted
    show inflight = BTreeMap.total flight (plan.put cid t inflight).chunks
    omega
  bounded := hle
  positive := h.positive
  offered := by
    intro a cs n ha
    rw [FetchPlan.put, BTreeMap.getElem?_insert_ite] at ha
    split at ha
    · cases ha
      exact hoffered cs n rfl
    · exact h.offered a cs n ha

/-- A chunk that is in flight is counted. -/
theorem Books.inflight_pos {plan : FetchPlan} (h : plan.Books) {cid : Cid}
    {cs : List PerNetworkIdentityId} {n : UInt32}
    (hs : plan.chunks[cid]? = some (.inFlight cs n)) : 0 < plan.inflight := by
  rw [h.counted, BTreeMap.total_erase hs]
  exact Nat.add_pos_left Nat.zero_lt_one _

theorem answerState_ready {ordered cs : List PerNetworkIdentityId}
    {holders n : UInt32} (h : answerState ordered holders = .ready cs n) :
    cs ≠ [] := by
  unfold answerState at h
  split at h
  · cases h
  · next hne =>
      cases h
      exact fun hnil => hne (List.isEmpty_iff.2 hnil)

theorem flight_answerState (ordered : List PerNetworkIdentityId)
    (holders : UInt32) : flight (answerState ordered holders) = 0 := by
  unfold answerState
  split <;> rfl

section Lands

variable {plan : FetchPlan} {cid : Cid} {cs cs' : List PerNetworkIdentityId}
  {n n' : UInt32} {t : ChunkState}

theorem Lands.ready (h : plan.Lands cid cs n (.ready cs' n')) :
    cs' = cs ∧ cs ≠ [] := by
  rcases h with h | ⟨h, -⟩ | ⟨h, -⟩ | ⟨h, hne⟩
  · cases h
  · cases h
  · cases h
  · cases h
    exact ⟨rfl, hne⟩

theorem Lands.flight (h : plan.Lands cid cs n t) : t.flight = 0 := by
  rcases h with rfl | ⟨rfl, -⟩ | ⟨rfl, -⟩ | ⟨rfl, -⟩ <;> rfl

theorem Lands.awaited (h : plan.Lands cid cs n t) : t.awaited = 0 := by
  rcases h with rfl | ⟨rfl, -⟩ | ⟨rfl, -⟩ | ⟨rfl, -⟩ <;> rfl

theorem Lands.candidates_prefix (h : plan.Lands cid cs n t) :
    t.candidates <+: cs := by
  rcases h with rfl | ⟨rfl, -⟩ | ⟨rfl, -⟩ | ⟨rfl, -⟩
  · exact List.nil_prefix
  · exact List.nil_prefix
  · exact List.nil_prefix
  · exact List.prefix_rfl

end Lands

theorem flight_of_isPending {s : ChunkState} (h : s.isPending = true) :
    s.flight = 0 := by
  cases s <;> first | rfl | cases h

/-- Every move keeps the books. -/
theorem Books.move {plan next : FetchPlan} {es : List Event} (h : plan.Books)
    (hmove : Move plan es next) : next.Books := by
  cases hmove with
  | wanted cid hs =>
      refine h.put cid _ _ (by simp) ?_ h.bounded
      rcases hs with hs | hs <;> simp [weightAt, hs, flight, isInFlight]
  | answered cid ordered holders hs =>
      refine h.put cid _ _ (fun _ _ => answerState_ready) ?_ h.bounded
      rw [flight_answerState, weightAt, hs]
      rfl
  | issued cid source rest holders hs hroom =>
      refine h.put cid _ _ (by simp) ?_ hroom
      rw [weightAt, hs]
      rfl
  | abandoned cid s hs hpending =>
      refine h.put cid _ _ (by simp) ?_ h.bounded
      simp only [weightAt, hs, Option.elim, flight_of_isPending hpending]
      rfl
  | landed cid cs n t hs ht =>
      have hpos := h.inflight_pos hs
      refine h.put cid t _ ?_ ?_ (Nat.le_trans (Nat.sub_le _ _) h.bounded)
      · intro cs' n' ht'
        rw [ht'] at ht
        obtain ⟨rfl, hne⟩ := ht.ready
        exact hne
      · have hone : plan.weightAt flight cid = 1 := by
          rw [weightAt, hs]
          rfl
        rw [ht.flight, hone]
        omega
  | freed => exact ⟨h.counted, h.bounded, h.positive, h.offered⟩
  | budgeted => exact ⟨h.counted, h.bounded, h.positive, h.offered⟩
  | charged => exact ⟨h.counted, h.bounded, h.positive, h.offered⟩

theorem Books.moves {plan next : FetchPlan} {es : List Event} (h : plan.Books)
    (hmoves : Moves plan es next) : next.Books :=
  hmoves.invariant (fun _ _ _ hbooks hmove => hbooks.move hmove) h

theorem books_new (cids : List Cid) (concurrency : ℕ) :
    (FetchPlan.new cids concurrency).Books := by
  obtain ⟨es, -, hmoves⟩ := moves_extend
    ⟨∅, max concurrency 1, 0, [], ∅⟩ cids
  refine Books.moves ⟨rfl, Nat.zero_le _, ?_, ?_⟩ hmoves
  · exact Nat.lt_of_lt_of_le Nat.zero_lt_one (Nat.le_max_right _ _)
  · intro cid cs n hs
    simp at hs

/-! ## The trace of a run -/

/-- Whether a call may put chunks into the plan. -/
def Call.extends : Call → Bool
  | .extend _ => true
  | .extendWithin .. => true
  | _ => false

/-- The answer for `cid` that a call gives the plan: the candidates of a
lookup the plan was still waiting for. -/
def answered (plan : FetchPlan) (cid : Cid) :
    Call → List (List PerNetworkIdentityId)
  | .recordProviders a providers fallback ledger observations threshold =>
      if a = cid ∧ plan.chunks[a]? = some .awaitingProviders then
        [orderedAnswer providers fallback ledger observations threshold]
      else []
  | _ => []

/-- The answers for `cid` in a run, in order. -/
def answersTo (plan : FetchPlan) (cid : Cid) :
    List Call → List (List PerNetworkIdentityId)
  | [] => []
  | c :: rest => plan.answered cid c ++ (plan.call c).2.answersTo cid rest

/-- The events of a call that puts chunks into the plan. -/
theorem wanted_events {es : List Event} (h : ∀ e ∈ es, e.isWanted = true) :
    es.filterMap Event.request = [] ∧
      ∀ cid, es.filterMap (Event.answerFor cid) = [] := by
  refine ⟨List.filterMap_eq_nil_iff.2 ?_,
    fun cid => List.filterMap_eq_nil_iff.2 ?_⟩
  · intro e he
    have hwanted := h e he
    cases e <;> first | rfl | cases hwanted
  · intro e he
    have hwanted := h e he
    cases e <;> first | rfl | cases hwanted

/-- The trace of one call says what it issued and what it was told. -/
theorem moves_call (plan : FetchPlan) (c : Call) :
    ∃ es, Moves plan es (plan.call c).2 ∧
      es.filterMap Event.request = (plan.call c).1 ∧
      (∀ cid, es.filterMap (Event.answerFor cid) = plan.answered cid c) ∧
      (c.extends = false → ∀ e ∈ es, e.isWanted = false) := by
  cases c with
  | extend cids =>
      obtain ⟨es, hes, hmoves⟩ := moves_extend plan cids
      obtain ⟨hrequests, hanswers⟩ := wanted_events hes
      exact ⟨es, hmoves, hrequests, hanswers, fun h => Bool.noConfusion h⟩
  | extendWithin object cids bytes =>
      obtain ⟨es, hes, hmoves⟩ := moves_extendWithin plan object cids bytes
      obtain ⟨hrequests, hanswers⟩ := wanted_events hes
      exact ⟨es, hmoves, hrequests, hanswers, fun h => Bool.noConfusion h⟩
  | recordProviders a providers fallback ledger observations threshold =>
      refine ⟨_, moves_recordProviders plan a providers fallback ledger
        observations threshold, ?_, ?_, ?_⟩
      · split <;> rfl
      · intro cid
        simp only [answered]
        by_cases hs : plan.chunks[a]? = some .awaitingProviders
        · rw [if_pos hs]
          by_cases hcid : a = cid
          · rw [if_pos ⟨hcid, hs⟩, hcid]
            simp [Event.answerFor]
          · rw [if_neg fun h => hcid h.1]
            simp [Event.answerFor, hcid]
        · rw [if_neg hs, if_neg fun h => hs h.2]
          rfl
      · intro _ e he
        split at he
        · rw [List.mem_singleton.1 he]
          rfl
        · simp at he
  | nextRequests =>
      refine ⟨_, moves_issue plan.requestOrder plan, ?_, ?_, ?_⟩
      · rw [List.filterMap_map]
        exact List.filterMap_some
      · intro cid
        rw [List.filterMap_map]
        exact List.filterMap_eq_nil_iff.2 fun _ _ => rfl
      · intro _ e he
        obtain ⟨r, -, rfl⟩ := List.mem_map.1 he
        rfl
  | admitChunk cid bytes =>
      obtain ⟨es, hes, hmoves⟩ := moves_admitChunk plan cid bytes
      have hsilent : ∀ {β : Type} (f : Event → Option β),
          f (.charged cid bytes) = none → es.filterMap f = [] := by
        intro β f hf
        refine List.filterMap_eq_nil_iff.2 fun e he => ?_
        rw [hes e he, hf]
      refine ⟨es, hmoves, hsilent _ rfl, fun _ => hsilent _ rfl, ?_⟩
      intro _ e he
      rw [hes e he]
      rfl
  | recordReceived cid =>
      exact ⟨[], moves_recordReceived plan cid, rfl, fun _ => rfl, by simp⟩
  | recordFailed cid =>
      exact ⟨[], moves_recordFailed plan cid, rfl, fun _ => rfl, by simp⟩

/-- The trace of a run, from the traces of its calls. -/
theorem moves_run (plan : FetchPlan) (calls : List Call) :
    ∃ es, Moves plan es (plan.run calls) ∧
      es.filterMap Event.request = plan.issued calls ∧
      (∀ cid, es.filterMap (Event.answerFor cid) = plan.answersTo cid calls) ∧
      ((∀ c ∈ calls, c.extends = false) → ∀ e ∈ es, e.isWanted = false) := by
  induction calls generalizing plan with
  | nil => exact ⟨[], .nil plan, rfl, fun _ => rfl, by simp⟩
  | cons c calls ih =>
      obtain ⟨es, hfirst, hissued, hanswers, hwanted⟩ := moves_call plan c
      obtain ⟨fs, hrest, hissued', hanswers', hwanted'⟩ := ih (plan.call c).2
      refine ⟨es ++ fs, hfirst.append hrest, ?_, fun cid => ?_, ?_⟩
      · rw [List.filterMap_append, hissued, hissued']
        rfl
      · rw [List.filterMap_append, hanswers, hanswers']
        rfl
      · intro hcalls e he
        rcases List.mem_append.1 he with he | he
        · exact hwanted (hcalls c (by simp)) e he
        · exact hwanted' (fun c' hc' => hcalls c' (by simp [hc'])) e he

theorem Books.run {plan : FetchPlan} (h : plan.Books) (calls : List Call) :
    (plan.run calls).Books := by
  obtain ⟨es, hmoves, -, -, -⟩ := moves_run plan calls
  exact h.moves hmoves

/-! ## What a plan asks for -/

/-- The sources of a chunk that are left from the last answer. -/
def pending (plan : FetchPlan) (cid : Cid) : List PerNetworkIdentityId :=
  plan.chunks[cid]?.elim [] candidates

/-- The sources that requests asked for `cid`, in order. -/
def sourcesOf (cid : Cid) (requests : List (Cid × PerNetworkIdentityId)) :
    List PerNetworkIdentityId :=
  (requests.filter fun r => r.1 = cid).map Prod.snd

theorem pending_put (plan : FetchPlan) (cid a : Cid) (t : ChunkState)
    (inflight : ℕ) :
    (plan.put cid t inflight).pending a =
      if cid = a then t.candidates else plan.pending a := by
  unfold pending put
  rw [BTreeMap.getElem?_insert_ite]
  split <;> rfl

/-- A chunk that changes its state keeps no source it did not have. -/
theorem pending_put_prefix {plan : FetchPlan} {cid : Cid} {s t : ChunkState}
    (hs : plan.chunks[cid]? = some s) (ht : t.candidates <+: s.candidates)
    (inflight : ℕ) (a : Cid) :
    (plan.put cid t inflight).pending a <+: plan.pending a := by
  rw [pending_put]
  split
  · next hca =>
      rw [← hca, pending, hs]
      exact ht
  · exact List.prefix_rfl

theorem candidates_answerState (ordered : List PerNetworkIdentityId)
    (holders : UInt32) : (answerState ordered holders).candidates = ordered := by
  unfold answerState
  split
  · next hnil => rw [List.isEmpty_iff.1 hnil]; rfl
  · rfl

/-- A move either takes sources off the front of what is pending for a chunk
or is the answer that replaces it. -/
theorem Move.pending {plan next : FetchPlan} {es : List Event}
    (h : Move plan es next) (a : Cid) :
    (es.filterMap (Event.answerFor a) = [] ∧
      sourcesOf a (es.filterMap Event.request) ++ next.pending a <+:
        plan.pending a) ∨
    ∃ ordered, es.filterMap (Event.answerFor a) = [ordered] ∧
      sourcesOf a (es.filterMap Event.request) = [] ∧
      next.pending a = ordered := by
  cases h with
  | wanted cid hs =>
      refine Or.inl ⟨rfl, ?_⟩
      show (plan.put cid _ _).pending a <+: plan.pending a
      rw [pending_put]
      split
      · exact List.nil_prefix
      · exact List.prefix_rfl
  | answered cid ordered holders hs =>
      by_cases hca : cid = a
      · refine Or.inr ⟨ordered, ?_, rfl, ?_⟩
        · simp [Event.answerFor, hca]
        · rw [pending_put, if_pos hca, candidates_answerState]
      · refine Or.inl ⟨?_, ?_⟩
        · simp [Event.answerFor, hca]
        · show (plan.put cid _ _).pending a <+: plan.pending a
          rw [pending_put, if_neg hca]
  | issued cid source rest holders hs hroom =>
      refine Or.inl ⟨rfl, ?_⟩
      rw [pending_put]
      by_cases hca : cid = a
      · have hfront : plan.pending a = source :: rest := by
          rw [← hca, FetchPlan.pending, hs]
          rfl
        simp [hca, hfront, sourcesOf, Event.request, candidates]
      · simp [hca, sourcesOf, Event.request]
  | abandoned cid s hs =>
      exact Or.inl ⟨rfl,
        pending_put_prefix (t := .overBudget) hs List.nil_prefix _ a⟩
  | landed cid cs n t hs ht =>
      exact Or.inl ⟨rfl, pending_put_prefix hs ht.candidates_prefix _ a⟩
  | freed => exact Or.inl ⟨rfl, List.prefix_rfl⟩
  | budgeted => exact Or.inl ⟨rfl, List.prefix_rfl⟩
  | charged => exact Or.inl ⟨rfl, List.prefix_rfl⟩

theorem sourcesOf_append (a : Cid)
    (xs ys : List (Cid × PerNetworkIdentityId)) :
    sourcesOf a (xs ++ ys) = sourcesOf a xs ++ sourcesOf a ys := by
  simp [sourcesOf]

/-- What a run asks for a chunk: first some of what was pending, then of each
answer some from its front. -/
theorem moves_sources {plan next : FetchPlan} {es : List Event}
    (h : Moves plan es next) (a : Cid) :
    ∃ front parts, front <+: plan.pending a ∧
      List.Forall₂ (· <+: ·) parts (es.filterMap (Event.answerFor a)) ∧
      sourcesOf a (es.filterMap Event.request) = front ++ parts.flatten := by
  induction h with
  | nil => exact ⟨[], [], List.nil_prefix, .nil, rfl⟩
  | @cons s m t es fs hmove _ ih =>
      obtain ⟨front, parts, hfront, hparts, hsources⟩ := ih
      rw [List.filterMap_append, List.filterMap_append, sourcesOf_append,
        hsources]
      rcases hmove.pending a with ⟨hnone, htaken⟩ | ⟨ordered, hsome, hnil, hm⟩
      · refine ⟨sourcesOf a (es.filterMap Event.request) ++ front, parts, ?_, ?_,
          (List.append_assoc _ _ _).symm⟩
        · exact ((List.prefix_append_right_inj _).2 hfront).trans htaken
        · rw [hnone]
          exact hparts
      · refine ⟨[], front :: parts, List.nil_prefix, ?_, ?_⟩
        · rw [hsome]
          rw [hm] at hfront
          exact .cons hfront hparts
        · rw [hnil]
          rfl

/-- Without an answer nothing comes to be pending. -/
theorem moves_pending_nil {plan next : FetchPlan} {es : List Event}
    (h : Moves plan es next) {a : Cid}
    (hnone : es.filterMap (Event.answerFor a) = [])
    (hnil : plan.pending a = []) : next.pending a = [] := by
  induction h with
  | nil => exact hnil
  | cons hmove _ ih =>
      rw [List.filterMap_append, List.append_eq_nil_iff] at hnone
      refine ih hnone.2 ?_
      rcases hmove.pending a with ⟨-, htaken⟩ | ⟨ordered, hsome, -⟩
      · rw [hnil, List.prefix_nil, List.append_eq_nil_iff] at htaken
        exact htaken.2
      · rw [hnone.1] at hsome
        cases hsome

/-- A new plan has nobody to ask yet. -/
theorem pending_new (cids : List Cid) (concurrency : ℕ) (a : Cid) :
    (FetchPlan.new cids concurrency).pending a = [] := by
  obtain ⟨es, hes, hmoves⟩ := moves_extend ⟨∅, max concurrency 1, 0, [], ∅⟩ cids
  refine moves_pending_nil hmoves ((wanted_events hes).2 a) ?_
  simp [pending]

/-! ## What a run can still ask for -/

/-- How many chunks wait for an answer, over the whole plan. -/
def awaiting (plan : FetchPlan) : ℕ := BTreeMap.total awaited plan.chunks

/-- How many candidates are left, over the whole plan. -/
def credits (plan : FetchPlan) : ℕ := BTreeMap.total credit plan.chunks

theorem total_put_le {f : ChunkState → ℕ} {plan : FetchPlan} {cid : Cid}
    {s t : ChunkState} (hs : plan.chunks[cid]? = some s) (ht : f t ≤ f s)
    (inflight : ℕ) :
    BTreeMap.total f (plan.put cid t inflight).chunks ≤
      BTreeMap.total f plan.chunks := by
  have htotal := total_put f plan cid t inflight
  rw [weightAt, hs] at htotal
  simp only [Option.elim] at htotal
  omega

/-- Of the moves that want no chunk, an answer lowers the number of chunks
that wait, and every other move pays for a request with a candidate. -/
theorem Move.totals {plan next : FetchPlan} {es : List Event}
    (h : Move plan es next) (hwanted : ∀ e ∈ es, e.isWanted = false) :
    next.awaiting + es.countP Event.isAnswered ≤ plan.awaiting ∧
      (es.countP Event.isAnswered = 0 →
        next.credits + (es.filterMap Event.request).length ≤
          plan.credits) := by
  cases h with
  | wanted cid hs =>
      exact Bool.noConfusion (hwanted (.wanted cid) (List.mem_singleton_self _))
  | answered cid ordered holders hs =>
      have htotal := total_put ChunkState.awaited plan cid
        (answerState ordered holders) plan.inflight
      have hone : plan.weightAt ChunkState.awaited cid = 1 := by
        rw [weightAt, hs]
        rfl
      have hzero : (answerState ordered holders).awaited = 0 := by
        unfold answerState
        split <;> rfl
      rw [hone, hzero] at htotal
      exact ⟨htotal.le, fun h => absurd h (by simp [Event.isAnswered])⟩
  | issued cid source rest holders hs hroom =>
      have htotal := total_put credit plan cid (.inFlight rest holders)
        (plan.inflight + 1)
      have hfront : plan.weightAt credit cid = rest.length + 1 := by
        rw [weightAt, hs]
        rfl
      have hrest : credit (.inFlight rest holders) = rest.length := rfl
      rw [hfront, hrest] at htotal
      have hawaited : ChunkState.awaited (.inFlight rest holders) ≤
        ChunkState.awaited (.ready (source :: rest) holders) := le_rfl
      refine ⟨total_put_le hs hawaited _, fun _ => ?_⟩
      simp only [credits, Event.request, List.filterMap_cons, List.filterMap_nil,
        List.length_cons, List.length_nil]
      omega
  | abandoned cid s hs =>
      exact ⟨total_put_le (t := .overBudget) hs (Nat.zero_le _) _,
        fun _ => total_put_le (t := .overBudget) hs (Nat.zero_le _) _⟩
  | landed cid cs n t hs ht =>
      refine ⟨total_put_le hs ?_ _, fun _ => total_put_le hs ?_ _⟩
      · rw [ht.awaited]
        exact Nat.zero_le _
      · exact ht.candidates_prefix.length_le
  | freed => exact ⟨le_rfl, fun _ => le_rfl⟩
  | budgeted => exact ⟨le_rfl, fun _ => le_rfl⟩
  | charged => exact ⟨le_rfl, fun _ => le_rfl⟩

theorem moves_totals {plan next : FetchPlan} {es : List Event}
    (h : Moves plan es next) (hwanted : ∀ e ∈ es, e.isWanted = false) :
    next.awaiting + es.countP Event.isAnswered ≤ plan.awaiting ∧
      (es.countP Event.isAnswered = 0 →
        next.credits + (es.filterMap Event.request).length ≤
          plan.credits) := by
  induction h with
  | nil => exact ⟨le_rfl, fun _ => le_rfl⟩
  | @cons s m t es fs hmove _ ih =>
      obtain ⟨hawait, hcredit⟩ :=
        hmove.totals fun e he => hwanted e (by simp [he])
      obtain ⟨hawait', hcredit'⟩ := ih fun e he => hwanted e (by simp [he])
      rw [List.countP_append, List.filterMap_append, List.length_append]
      refine ⟨by omega, fun hnone => ?_⟩
      have hfirst := hcredit (by omega)
      have hrest := hcredit' (by omega)
      omega

/-- A run that wants no new chunk and gets no answer issues at most one
request a candidate; the number of chunks that wait never grows. -/
theorem issued_le_credits {plan : FetchPlan} {calls : List Call}
    (hcalls : ∀ c ∈ calls, c.extends = false) :
    (plan.run calls).awaiting ≤ plan.awaiting ∧
      ((plan.run calls).awaiting = plan.awaiting →
        (plan.issued calls).length ≤ plan.credits) := by
  obtain ⟨es, hmoves, hissued, -, hwanted⟩ := moves_run plan calls
  obtain ⟨hawait, hcredit⟩ := moves_totals hmoves (hwanted hcalls)
  rw [hissued] at hcredit
  refine ⟨by omega, fun heq => ?_⟩
  have hpaid := hcredit (by omega)
  omega

theorem run_append (plan : FetchPlan) (xs ys : List Call) :
    plan.run (xs ++ ys) = (plan.run xs).run ys :=
  List.foldl_append

theorem issued_append (plan : FetchPlan) (xs ys : List Call) :
    plan.issued (xs ++ ys) = plan.issued xs ++ (plan.run xs).issued ys := by
  induction xs generalizing plan with
  | nil => rfl
  | cons c xs ih =>
      show (plan.call c).1 ++ (plan.call c).2.issued (xs ++ ys) = _
      rw [ih, ← List.append_assoc]
      rfl

/-- The first `n` calls of an endless sequence. -/
def firstCalls (later : ℕ → Call) (n : ℕ) : List Call :=
  (List.range n).map later

theorem firstCalls_add (later : ℕ → Call) (m k : ℕ) :
    firstCalls later (m + k) =
      firstCalls later m ++ firstCalls (fun i => later (m + i)) k := by
  unfold firstCalls
  rw [List.range_add, List.map_append, List.map_map]
  rfl

/-- However long it goes on, a sequence of calls that wants no new chunk
issues a bounded number of requests. -/
theorem issued_bounded (plan : FetchPlan) (later : ℕ → Call)
    (hlater : ∀ n, (later n).extends = false) :
    ∃ bound, ∀ n, (plan.issued (firstCalls later n)).length ≤ bound := by
  induction hk : plan.awaiting using Nat.strong_induction_on
    generalizing plan later with
  | _ k ih =>
      subst hk
      have hcalls : ∀ n, ∀ c ∈ firstCalls later n, c.extends = false := by
        intro n c hc
        obtain ⟨i, -, rfl⟩ := List.mem_map.1 hc
        exact hlater i
      by_cases hdrop : ∃ m,
          (plan.run (firstCalls later m)).awaiting < plan.awaiting
      · -- after the first drop fewer chunks wait, and the rest is bounded
        obtain ⟨m, hm⟩ := hdrop
        obtain ⟨bound, hbound⟩ := ih _ hm (plan.run (firstCalls later m))
          (fun i => later (m + i)) (fun i => hlater (m + i)) rfl
        refine ⟨(plan.issued (firstCalls later m)).length + bound, fun n => ?_⟩
        rcases Nat.le_total m n with hmn | hnm
        · obtain ⟨j, rfl⟩ := Nat.exists_eq_add_of_le hmn
          rw [firstCalls_add, issued_append, List.length_append]
          exact Nat.add_le_add_left (hbound j) _
        · obtain ⟨j, rfl⟩ := Nat.exists_eq_add_of_le hnm
          rw [firstCalls_add, issued_append, List.length_append]
          omega
      · refine ⟨plan.credits, fun n => ?_⟩
        obtain ⟨hle, hcredit⟩ := issued_le_credits (hcalls n)
        refine hcredit (Nat.le_antisymm hle ?_)
        exact Nat.le_of_not_lt fun hlt => hdrop ⟨n, hlt⟩

/-! ## The next requests -/

theorem mem_readyChunks {plan : FetchPlan} {cid : Cid} :
    (∃ n, (cid, n) ∈ plan.readyChunks) ↔
      ∃ cs n, plan.chunks[cid]? = some (.ready cs n) := by
  unfold readyChunks
  constructor
  · intro hgiven
    obtain ⟨n, hn⟩ := hgiven
    obtain ⟨⟨a, s⟩, hmem, hs⟩ := List.mem_filterMap.1 hn
    cases s with
    | ready cs m =>
        cases hs
        exact ⟨cs, n, (BTreeMap.mem_toList_iff _ _).1 hmem⟩
    | _ => cases hs
  · intro hgiven
    obtain ⟨cs, n, hs⟩ := hgiven
    exact ⟨n, List.mem_filterMap.2
      ⟨(cid, .ready cs n), (BTreeMap.mem_toList_iff _ _).2 hs, rfl⟩⟩

/-- The order of asking runs over the chunks that can be asked for. -/
theorem mem_requestOrder {plan : FetchPlan} {cid : Cid} :
    cid ∈ plan.requestOrder ↔
      ∃ cs n, plan.chunks[cid]? = some (.ready cs n) := by
  rw [← mem_readyChunks]
  simp [requestOrder, Serving.rarestFirst]

/-- What one round issues could be asked for, and no chunk is asked for
twice. -/
theorem issue_spec (order : List Cid) (plan : FetchPlan) :
    (∀ r ∈ (issue order plan).1,
      ∃ cs n, plan.chunks[r.1]? = some (.ready cs n)) ∧
      ((issue order plan).1.map Prod.fst).Nodup := by
  induction order generalizing plan with
  | nil => exact ⟨by simp [issue], List.nodup_nil⟩
  | cons cid rest ih =>
      unfold issue
      split
      · exact ⟨by simp, List.nodup_nil⟩
      · split
        · next source remaining holders hs =>
            obtain ⟨hready, hnodup⟩ := ih { plan with
              chunks := plan.chunks.insert cid (.inFlight remaining holders)
              inflight := plan.inflight + 1 }
            -- the chunk just issued is in flight for the rest of the round
            have hother : ∀ r ∈ (issue rest { plan with
                chunks := plan.chunks.insert cid (.inFlight remaining holders)
                inflight := plan.inflight + 1 }).1,
                cid ≠ r.1 ∧ ∃ cs n, plan.chunks[r.1]? = some (.ready cs n) := by
              intro r hr
              obtain ⟨cs, n, hcs⟩ := hready r hr
              rw [BTreeMap.getElem?_insert_ite] at hcs
              split at hcs
              · cases hcs
              · next hne => exact ⟨hne, cs, n, hcs⟩
            refine ⟨?_, ?_⟩
            · intro r hr
              rcases List.mem_cons.1 hr with rfl | hr
              · exact ⟨_, _, hs⟩
              · exact (hother r hr).2
            · refine List.nodup_cons.2 ⟨?_, hnodup⟩
              intro hmem
              obtain ⟨r, hr, hcid⟩ := List.mem_map.1 hmem
              exact (hother r hr).1 hcid.symm
        · exact ih plan

/-- With room for a request, a chunk that can be asked for is asked for. -/
theorem Books.nextRequests_ne_nil {plan : FetchPlan} (h : plan.Books)
    (hroom : plan.inflight < plan.concurrency) {cid : Cid}
    {cs : List PerNetworkIdentityId} {n : UInt32}
    (hs : plan.chunks[cid]? = some (.ready cs n)) :
    plan.nextRequests.1 ≠ [] := by
  unfold nextRequests
  cases horder : plan.requestOrder with
  | nil =>
      have hmem := mem_requestOrder.2 ⟨cs, n, hs⟩
      rw [horder] at hmem
      cases hmem
  | cons first rest =>
      have hmem : first ∈ plan.requestOrder := by
        rw [horder]
        exact List.mem_cons_self
      obtain ⟨cs', n', hfirst⟩ := mem_requestOrder.1 hmem
      cases cs' with
      | nil => exact absurd rfl (h.offered first [] n' hfirst)
      | cons source remaining =>
          unfold issue
          rw [if_neg (Nat.not_le_of_lt hroom), hfirst]
          exact List.cons_ne_nil _ _

/-- A plan with nothing left to wait for is complete. -/
theorem Books.isComplete {plan : FetchPlan} (h : plan.Books)
    (hidle : ∀ (cid : Cid) (s : ChunkState), plan.chunks[cid]? = some s →
      s.isAwaiting = false ∧ s.isInFlight = false)
    (hnext : plan.nextRequests.1 = []) : plan.isComplete = true := by
  have hzero : plan.inflight = 0 := by
    rw [h.counted, BTreeMap.total, List.sum_eq_zero_iff]
    intro w hw
    obtain ⟨⟨cid, s⟩, hmem, rfl⟩ := List.mem_map.1 hw
    have hflight := (hidle cid s ((BTreeMap.mem_toList_iff _ _).1 hmem)).2
    exact if_neg (by rw [hflight]; decide)
  have hroom : plan.inflight < plan.concurrency := by
    rw [hzero]
    exact h.positive
  unfold FetchPlan.isComplete
  rw [List.all_eq_true]
  intro c hc
  obtain ⟨cid, s⟩ := c
  have hs := (BTreeMap.mem_toList_iff _ _).1 hc
  obtain ⟨hawait, hflight⟩ := hidle cid s hs
  cases s with
  | awaitingProviders => cases hawait
  | ready cs n => exact absurd hnext (h.nextRequests_ne_nil hroom hs)
  | inFlight cs n => cases hflight
  | exhausted => rfl
  | done => rfl
  | overBudget => rfl

theorem total_flight (plan : FetchPlan) :
    BTreeMap.total flight plan.chunks =
      plan.chunks.toList.countP fun c => c.2.isInFlight := by
  rw [BTreeMap.total, List.countP_eq_length_filter]
  induction plan.chunks.toList with
  | nil => rfl
  | cons c rest ih =>
      rw [List.map_cons, List.sum_cons, ih, List.filter_cons, flight]
      split
      · rw [List.length_cons, Nat.add_comm]
      · rw [Nat.zero_add]

/-! ## The state machine -/

/-- In every state a plan reaches, by any calls with any arguments, the
counter is the number of chunks in flight and within the limit, a chunk that
can be asked for has a candidate, and the next requests name no chunk that is
in flight and none twice. What was asked for a chunk is, answer by answer, a
front part of the candidates the answer yielded; without new chunks a run
issues boundedly many requests however long it goes on; and a plan that waits
for nothing and has nothing to issue is complete. -/
theorem fetchPlan_run (cids : List Cid) (concurrency : ℕ) (calls : List Call) :
    let start := FetchPlan.new cids concurrency
    let plan := start.run calls
    plan.inflight = (plan.chunks.toList.countP fun c => c.2.isInFlight) ∧
      plan.inflight ≤ plan.concurrency ∧
      (∀ (cid : Cid) (cs : List PerNetworkIdentityId) (n : UInt32),
        plan.chunks[cid]? = some (.ready cs n) → cs ≠ []) ∧
      (∀ r ∈ plan.nextRequests.1, ∀ s : ChunkState,
        plan.chunks[r.1]? = some s → s.isInFlight = false) ∧
      (plan.nextRequests.1.map Prod.fst).Nodup ∧
      (∀ cid, ∃ parts,
        List.Forall₂ (· <+: ·) parts (start.answersTo cid calls) ∧
        sourcesOf cid (start.issued calls) = parts.flatten) ∧
      (∀ later : ℕ → Call, (∀ n, (later n).extends = false) →
        ∃ bound, ∀ n, (plan.issued (firstCalls later n)).length ≤ bound) ∧
      ((∀ (cid : Cid) (s : ChunkState), plan.chunks[cid]? = some s →
          s.isAwaiting = false ∧ s.isInFlight = false) →
        plan.nextRequests.1 = [] → plan.isComplete = true) := by
  intro start plan
  have hbooks : plan.Books := (books_new cids concurrency).run calls
  obtain ⟨hready, hnodup⟩ := issue_spec plan.requestOrder plan
  refine ⟨?_, hbooks.bounded, hbooks.offered, ?_, hnodup, ?_,
    issued_bounded plan, hbooks.isComplete⟩
  · rw [hbooks.counted, total_flight]
  · intro r hr s hs
    obtain ⟨cs, n, hcs⟩ := hready r hr
    rw [hcs] at hs
    cases hs
    rfl
  · intro cid
    obtain ⟨es, hmoves, hissued, hanswers, -⟩ := moves_run start calls
    obtain ⟨front, parts, hfront, hparts, hsources⟩ := moves_sources hmoves cid
    have hnothing : start.pending cid = [] := pending_new cids concurrency cid
    rw [hnothing, List.prefix_nil] at hfront
    rw [hissued, hfront, List.nil_append] at hsources
    rw [hanswers] at hparts
    exact ⟨parts, hparts, hsources⟩

end FetchPlan

end Intranet
