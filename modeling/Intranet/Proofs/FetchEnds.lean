import Intranet.Lib.Fair
import Intranet.Proofs.ChunkNode

/-!
# A fetch ends

What an answer costs is paid for. One to a lookup leaves fewer of them; one to
a request leaves fewer requests and untried sources together, since whatever
is sent next takes a source off the plan. That is the `load` of a node, and
without new calls it never rises.
-/

namespace Intranet

namespace ChunkNode

variable {C : Crypto} {validKey : Bytes 32 → Bool} {P : PeerIds}
  {node next : ChunkNode} {plan : FetchPlan} {inPlay : Set (List UInt8)}

/-! ## What an answer comes to -/

/-- What becomes of a plan on which answers are recorded: it is about the same
chunks. -/
structure Continues (C : Crypto) (inPlay : Set (List UInt8))
    (plan plan' : FetchPlan) : Prop where
  same : SameChunks plan plan'
  fetching : Relation.ReflTransGen (FetchPlan.Fetching C inPlay) plan plan'

theorem Continues.refl (plan : FetchPlan) : Continues C inPlay plan plan :=
  ⟨fun _ => Iff.rfl, .refl⟩

theorem Continues.trans {plan' plan'' : FetchPlan}
    (h : Continues C inPlay plan plan')
    (hnext : Continues C inPlay plan' plan'') :
    Continues C inPlay plan plan'' :=
  ⟨fun a => (hnext.same a).trans (h.same a), h.fetching.trans hnext.fetching⟩

/-- Where a fetch stands after a step: it goes on, or it is over and
reported. -/
def GoesOn (C : Crypto) (inPlay : Set (List UInt8)) (plan : FetchPlan)
    (next : ChunkNode) : Prop :=
  (∃ plan', next.fetch = some plan' ∧ Continues C inPlay plan plan') ∨
  (next.fetch = none ∧ ∃ plan', plan'.isComplete = true ∧
    Continues C inPlay plan plan' ∧ next.pending = [completion plan'])

theorem load_drive (h : Driving node plan ∅ ∅) (hfetch : node.fetch = some plan)
    (htidy : node.Tidy) : (node.driveFetch P).load ≤ node.load := by
  have hsends := h.sends (P := P) hfetch htidy
  have hcredits := (FetchPlan.moves_totals
    (FetchPlan.moves_issue plan.requestOrder plan)
    (fun e he => by obtain ⟨r, -, rfl⟩ := List.mem_map.1 he; rfl)).2
    (List.countP_eq_zero.2 fun e he => by
      obtain ⟨r, -, rfl⟩ := List.mem_map.1 he
      simp [FetchPlan.Event.isAnswered])
  have hsize := hsends.size
  have hqueries : (node.driveFetch P).providerQueries =
    node.providerQueries := by
    rw [hsends.frame]
  have hnext : (node.driveFetch P).fetch = some plan.nextRequests.2 := by
    rw [hsends.frame]
  have hissued : (((FetchPlan.issue plan.requestOrder plan).1.map fun r =>
      FetchPlan.Event.issued r.1 r.2).filterMap
        FetchPlan.Event.request).length =
      plan.nextRequests.1.length := by
    rw [List.filterMap_map]
    exact congrArg List.length List.filterMap_some
  rw [hissued] at hcredits
  rw [List.length_map] at hsize
  unfold load
  rw [hqueries, hnext, hfetch, hsize]
  refine Prod.Lex.toLex_le_toLex.2 (.inr ⟨rfl, ?_⟩)
  simp only [Option.elim]
  show node.inflight.size + _ + plan.nextRequests.2.credits ≤ _
  have hle : plan.nextRequests.2.credits + plan.nextRequests.1.length ≤
    plan.credits := hcredits
  omega

theorem Taken.load (h : Taken C P inPlay node plan next) :
    next.load < node.load := by
  obtain ⟨mid, plan', hmid, rfl⟩ := h
  have hdrive := load_drive (P := P) hmid.driving hmid.fetch hmid.tidy
  refine lt_of_le_of_lt (le_trans ?_ hdrive) hmid.load
  have hnext : (mid.driveFetch P).fetch = some plan'.nextRequests.2 := by
    rw [(hmid.driving.sends hmid.fetch hmid.tidy).frame]
  rw [reportCompletion_running hnext]
  split
  · refine Prod.Lex.toLex_le_toLex.2 (.inr ⟨rfl, ?_⟩)
    exact Nat.add_le_add_left (Nat.zero_le _) _
  · exact le_rfl

theorem Taken.goesOn (h : Taken C P inPlay node plan next)
    (hpending : node.pending = []) : GoesOn C inPlay plan next := by
  obtain ⟨mid, plan', hmid, rfl⟩ := h
  have hsends := hmid.driving.sends (P := P) hmid.fetch hmid.tidy
  have hnext : (mid.driveFetch P).fetch = some plan'.nextRequests.2 := by
    rw [hsends.frame]
  have hquiet : (mid.driveFetch P).pending = [] := by
    rw [hsends.frame]
    exact hmid.pending.trans hpending
  have hissued : Continues C inPlay plan plan'.nextRequests.2 := by
    have hround := sameChunks_of_moves
      (FetchPlan.moves_issue plan'.requestOrder plan')
      (fun e he => by obtain ⟨r, -, rfl⟩ := List.mem_map.1 he; rfl)
    exact ⟨fun a => (hround a).trans (hmid.same a),
      .tail (.single hmid.fetching) (.call .nextRequests (by simp))⟩
  rw [reportCompletion_running hnext]
  split
  · next hcomplete =>
      refine .inr ⟨rfl, _, hcomplete, hissued, ?_⟩
      rw [hquiet, List.nil_append]
  · exact .inl ⟨_, hnext, hissued⟩

/-! ## Steps -/

/-- Whether an input is an event that gets handled and answers something. -/
def Takes (node : ChunkNode) : Input C validKey → Prop
  | .nextEvent (some event) => node.pending = [] ∧ node.Answers event
  | _ => False

/-- The bytes an input puts into play. -/
def Input.brings : Input C validKey → Set (List UInt8)
  | .storeChunk bytes => {bytes}
  | .nextEvent (some event) => event.brings
  | _ => ∅

/-- Without new calls the load never rises while a fetch runs, an answer
lowers it, and the fetch goes on or is reported. -/
theorem step_running (h : node.Sound) (hfetch : node.fetch = some plan)
    (input : Input C validKey) (hasks : input.asks = false)
    (hplay : input.brings ⊆ inPlay) :
    (node.step P input).2.load ≤ node.load ∧
      (node.Takes input → (node.step P input).2.load < node.load) ∧
      GoesOn C inPlay plan (node.step P input).2 := by
  have hstay : GoesOn C inPlay plan node := .inl ⟨plan, hfetch, .refl plan⟩
  cases input with
  | fetchChunks cids requester concurrency => cases hasks
  | fetchObject object manifest requester concurrency => cases hasks
  | requestChunk source cid requester => cases hasks
  | findProviders cid => cases hasks
  | storeChunk bytes => exact ⟨le_rfl, fun htakes => htakes.elim, hstay⟩
  | forgetChunk cid => exact ⟨le_rfl, fun htakes => htakes.elim, hstay⟩
  | gossiped ledger tiers => exact ⟨le_rfl, fun htakes => htakes.elim, hstay⟩
  | nextEvent event =>
      show (node.nextEvent C P event).2.load ≤ node.load ∧
        (_ → (node.nextEvent C P event).2.load < node.load) ∧
        GoesOn C inPlay plan (node.nextEvent C P event).2
      unfold ChunkNode.nextEvent
      cases hpending : node.pending with
      | cons report rest =>
          refine ⟨le_rfl, fun htakes => ?_,
            .inl ⟨plan, hfetch, .refl plan⟩⟩
          cases event with
          | none => exact htakes.elim
          | some event =>
              have hquiet := htakes.1
              rw [hpending] at hquiet
              cases hquiet
      | nil =>
          cases event with
          | none => exact ⟨le_rfl, fun htakes => htakes.elim, hstay⟩
          | some event =>
              simp only
              by_cases ha : node.Answers event
              · have htaken := handle_taken (C := C) (P := P) h hfetch ha
                  hplay
                exact ⟨htaken.load.le, fun _ => htaken.load,
                  htaken.goesOn hpending⟩
              · rcases handle_stale (C := C) (P := P) ha with
                  heq | ⟨q, found, heq⟩
                · rw [heq]
                  exact ⟨le_rfl, fun htakes => absurd htakes.2 ha, hstay⟩
                · obtain ⟨hfetch', -, hload, -⟩ :=
                    gather_work node q found
                  rw [heq]
                  exact ⟨hload.le, fun htakes => absurd htakes.2 ha,
                    .inl ⟨plan, hfetch'.trans hfetch, .refl plan⟩⟩

/-! ## The report -/

theorem mem_collect {matching : ChunkState → Bool} {a : Cid} :
    a ∈ plan.collect matching ↔
      ∃ s, plan.chunks[a]? = some s ∧ matching s = true := by
  unfold FetchPlan.collect
  constructor
  · intro ha
    obtain ⟨c, hc, rfl⟩ := List.mem_map.1 ha
    obtain ⟨hmem, hmatch⟩ := List.mem_filter.1 hc
    exact ⟨c.2, (BTreeMap.mem_toList_iff _ _).1 hmem, hmatch⟩
  · intro ha
    obtain ⟨s, hs, hmatch⟩ := ha
    exact List.mem_map.2 ⟨(a, s), List.mem_filter.2
      ⟨(BTreeMap.mem_toList_iff _ _).2 hs, hmatch⟩, rfl⟩

theorem nodup_collect (matching : ChunkState → Bool) :
    (plan.collect matching).Nodup := by
  unfold FetchPlan.collect
  refine (List.pairwise_map.2 ?_ : List.Pairwise (· ≠ ·) _)
  exact ((BTreeMap.toList_pairwise plan.chunks).filter _).imp fun h =>
    ne_of_lt h

/-- A chunk is in at most one of the lists of a report. -/
theorem disjoint_collect {p q : ChunkState → Bool}
    (h : ∀ s, p s = true → q s = true → False) :
    List.Disjoint (plan.collect p) (plan.collect q) := by
  intro a hp hq
  obtain ⟨s, hs, hps⟩ := mem_collect.1 hp
  obtain ⟨t, ht, hqt⟩ := mem_collect.1 hq
  rw [hs] at ht
  cases ht
  exact h s hps hqt

/-- The lists of a report share the chunks of a complete plan out. -/
theorem report_partition (h : plan.isComplete = true) :
    (plan.received ++ plan.unavailable ++ plan.overBudget).Nodup ∧
      ∀ a, a ∈ plan.received ++ plan.unavailable ++ plan.overBudget ↔
        a ∈ plan.chunks := by
  constructor
  · refine List.nodup_append'.2 ⟨List.nodup_append'.2 ⟨nodup_collect _,
      nodup_collect _, disjoint_collect ?_⟩, nodup_collect _, ?_⟩
    · intro s hs ht
      rw [of_decide_eq_true hs] at ht
      cases of_decide_eq_true ht
    · refine List.disjoint_append_left.2
        ⟨disjoint_collect ?_, disjoint_collect ?_⟩
      · intro s hs ht
        rw [of_decide_eq_true hs] at ht
        cases of_decide_eq_true ht
      · intro s hs ht
        rw [of_decide_eq_true hs] at ht
        cases of_decide_eq_true ht
  · intro a
    rw [List.mem_append, List.mem_append, FetchPlan.received,
      FetchPlan.unavailable, FetchPlan.overBudget, mem_collect, mem_collect,
      mem_collect, BTreeMap.mem_iff_exists]
    constructor
    · intro hlisted
      rcases hlisted with (⟨s, hs, -⟩ | ⟨s, hs, -⟩) | ⟨s, hs, -⟩ <;>
        exact ⟨s, hs⟩
    · intro hmem
      obtain ⟨s, hs⟩ := hmem
      have hsettled := List.all_eq_true.1 h (a, s)
        ((BTreeMap.mem_toList_iff _ _).2 hs)
      cases s with
      | awaitingProviders => cases hsettled
      | ready cs n => cases hsettled
      | inFlight cs n => cases hsettled
      | exhausted => exact .inl (.inr ⟨_, hs, rfl⟩)
      | done => exact .inl (.inl ⟨_, hs, rfl⟩)
      | overBudget => exact .inr ⟨_, hs, rfl⟩

/-! ## The state machine -/

theorem fetchInProgress_iff :
    node.fetchInProgress = true ↔
      ∃ plan, node.fetch = some plan ∧ plan.isComplete = false := by
  unfold fetchInProgress
  cases node.fetch with
  | none => simp
  | some plan => simp

/-- A fetch that is not over waits for something. -/
theorem Sound.waits (h : node.Sound) (hon : node.discovery = true)
    (hprogress : node.fetchInProgress = true) :
    ∃ event, node.Answers event := by
  obtain ⟨plan, hfetch, hopen⟩ := fetchInProgress_iff.1 hprogress
  have hdriving := h.driving plan hfetch
  by_contra hnobody
  have hcomplete : plan.isComplete = true := by
    refine hdriving.books.isComplete (fun a s hs => ?_) (h.stopped plan hfetch)
    cases s with
    | awaitingProviders =>
        obtain ⟨q, found, hq⟩ := hdriving.queried hon a (Set.notMem_empty a) hs
        have hmem := (BTreeMap.mem_iff_exists _ _).2 ⟨_, hq⟩
        exact absurd ⟨.providersProgressed q [] true, rfl, hmem⟩ hnobody
    | inFlight cs n =>
        obtain ⟨r, o, hr, -⟩ := hdriving.underway a (Set.notMem_empty a) cs n hs
        have hmem := (BTreeMap.mem_iff_exists _ _).2 ⟨_, hr⟩
        exact absurd ⟨.response r .notHeld, hmem⟩ hnobody
    | ready cs n => exact ⟨rfl, rfl⟩
    | exhausted => exact ⟨rfl, rfl⟩
    | done => exact ⟨rfl, rfl⟩
    | overBudget => exact ⟨rfl, rfl⟩
  rw [hcomplete] at hopen
  cases hopen

/-- Where a fetch that gets its answers ends. -/
theorem ends_reported {start : ChunkNode} (hstart : start.Sound)
    {later : ℕ → Input C validKey} (hlater : ∀ n, (later n).asks = false)
    (hplay : ∀ n, (later n).brings ⊆ inPlay)
    (hfair : ∀ n,
      (Machine.after (step P) start later n).fetchInProgress = true → ∃ m,
        n ≤ m ∧ (Machine.after (step P) start later m).Takes (later m))
    (hplan : start.fetch = some plan) (hopen : plan.isComplete = false) :
    ∃ n plan', (∀ m, m < n →
        (Machine.after (step P) start later m).fetch ≠ none) ∧
      (Machine.after (step P) start later n).fetch = none ∧
      plan'.isComplete = true ∧ Continues C inPlay plan plan' ∧
      (Machine.after (step P) start later n).pending = [completion plan'] := by
  let node := Machine.after (step P) start later
  have hsound : ∀ n, (node n).Sound :=
    Machine.after_invariant hstart (fun _ n h => h.step (later n))
  have hstep : ∀ n p, (node n).fetch = some p → _ := fun n p hp =>
    step_running (P := P) (hsound n) hp (later n) (hlater n) (hplay n)
  -- until the fetch is over it is about the chunks it was about
  have hruns : ∀ n, (∀ m, m ≤ n → (node m).fetch ≠ none) →
      ∃ p, (node n).fetch = some p ∧ Continues C inPlay plan p := by
    intro n
    induction n with
    | zero => exact fun _ => ⟨plan, hplan, .refl plan⟩
    | succ n ih =>
        intro hnone
        obtain ⟨p, hp, hsame⟩ := ih fun m hm => hnone m (Nat.le_succ_of_le hm)
        rcases (hstep n p hp).2.2 with ⟨p', hp', hsame'⟩ | ⟨hnext, -⟩
        · exact ⟨p', hp', hsame.trans hsame'⟩
        · exact absurd hnext (hnone (n + 1) le_rfl)
  -- and as it is about some chunk, one of them is not settled
  have hprogress : ∀ n, (∀ m, m ≤ n → (node m).fetch ≠ none) →
      (node n).fetchInProgress = true := by
    intro n hnone
    obtain ⟨p, hp, hsame⟩ := hruns n hnone
    obtain ⟨a, s, ha, -⟩ := FetchPlan.exists_unsettled hopen
    obtain ⟨b, t, hb, ht⟩ := (hsound n).opened p hp a
      ((hsame.same a).2 ((BTreeMap.mem_iff_exists _ _).2 ⟨s, ha⟩))
    exact fetchInProgress_iff.2 ⟨p, hp, FetchPlan.not_isComplete hb ht⟩
  have hends : ∃ n, (node n).fetch = none := by
    by_contra hnever
    have hnone : ∀ m, (node m).fetch ≠ none := fun m hm => hnever ⟨m, hm⟩
    refine Machine.not_falls_forever (f := fun n => (node n).load) ?_ ?_
    · intro n
      obtain ⟨p, hp, -⟩ := hruns n fun m _ => hnone m
      exact (hstep n p hp).1
    · intro n
      obtain ⟨m, hnm, htakes⟩ := hfair n (hprogress n fun m _ => hnone m)
      obtain ⟨p, hp, -⟩ := hruns m fun m _ => hnone m
      exact ⟨m, hnm, (hstep m p hp).2.1 htakes⟩
  classical
  have hbefore : ∀ m, m < Nat.find hends → (node m).fetch ≠ none :=
    fun m hm => Nat.find_min hends hm
  cases hn : Nat.find hends with
  | zero =>
      have hnow := Nat.find_spec hends
      rw [hn] at hnow
      exact absurd (hplan.symm.trans hnow) (Option.some_ne_none plan)
  | succ k =>
      have hnow := Nat.find_spec hends
      rw [hn] at hnow hbefore
      obtain ⟨p, hp, hsame⟩ :=
        hruns k fun m hm => hbefore m (Nat.lt_succ_of_le hm)
      rcases (hstep k p hp).2.2 with
        ⟨p', hp', -⟩ | ⟨-, p', hdone, hsame', hreport⟩
      · exact absurd (hp'.symm.trans hnow) (Option.some_ne_none p')
      · exact ⟨k + 1, p', hbefore, hnow, hdone, hsame.trans hsame', hreport⟩

/-- From whatever state its calls and the network brought a node into, a fetch
that is not over waits for an answer; and if answers keep coming as long as it
does, it comes to its end, and is reported then with each of its chunks in
exactly one of the three lists. -/
theorem fetch_ends (P : PeerIds) (network : NetworkId)
    (inputs : List (Input C validKey)) (later : ℕ → Input C validKey)
    (hlater : ∀ n, (later n).asks = false) :
    let start := Machine.state (step P) (.new network true) inputs
    let node := Machine.after (step P) start later
    (∀ n, (node n).fetchInProgress = true →
      ∃ event, (node n).Answers event) ∧
    ((∀ n, (node n).fetchInProgress = true →
        ∃ m, n ≤ m ∧ (node m).Takes (later m)) →
      ∀ plan, start.fetch = some plan → plan.isComplete = false →
      ∃ n received unavailable overBudget,
        (∀ m, m < n → (node m).fetch ≠ none) ∧ (node n).fetch = none ∧
        (node n).pending =
          [.fetchComplete received unavailable overBudget] ∧
        (received ++ unavailable ++ overBudget).Nodup ∧
        ∀ a, a ∈ received ++ unavailable ++ overBudget ↔ a ∈ plan.chunks) := by
  intro start node
  have hsound : ∀ n, (node n).Sound :=
    Machine.after_invariant (sound_run network true inputs)
      (fun _ n h => h.step (later n))
  have hon : ∀ n, (node n).discovery = true :=
    Machine.after_invariant (P := fun node : ChunkNode => node.discovery = true)
      (discovery_run network true inputs)
      (fun _ n h => (step_discovery (later n)).trans h)
  refine ⟨fun n hprogress => (hsound n).waits (hon n) hprogress, ?_⟩
  intro hfair plan hplan hopen
  obtain ⟨n, plan', hbefore, hnow, hdone, hsame, hreport⟩ :=
    ends_reported (P := P) (hsound 0) hlater (fun n => Set.subset_univ _) hfair
      hplan hopen
  obtain ⟨hnodup, hmem⟩ := report_partition hdone
  exact ⟨n, plan'.received, plan'.unavailable, plan'.overBudget, hbefore, hnow,
    hreport, hnodup, fun a => (hmem a).trans (hsame.same a)⟩

/-! ## Without discovery -/

/-- Nothing is known about where any chunk is. -/
def AllAwaiting (plan : FetchPlan) : Prop :=
  ∀ (a : Cid) (s : ChunkState), plan.chunks[a]? = some s →
    s = .awaitingProviders

/-- A node that nobody tells where anything is. -/
structure Deaf (node : ChunkNode) : Prop where
  off : node.discovery = false
  queries : node.providerQueries = ∅
  awaiting : ∀ plan, node.fetch = some plan → AllAwaiting plan

section Deaf

variable {a : Cid}

theorem AllAwaiting.not_inFlight (h : AllAwaiting plan) :
    ∀ cs n, plan.chunks[a]? ≠ some (.inFlight cs n) :=
  fun _ _ ha => by cases h a _ ha

theorem AllAwaiting.received (h : AllAwaiting plan) (a : Cid) :
    plan.recordReceived a = plan := by
  unfold FetchPlan.recordReceived
  split
  · next hs => exact absurd hs (h.not_inFlight _ _)
  · rfl

theorem AllAwaiting.failed (h : AllAwaiting plan) (a : Cid) :
    plan.recordFailed a = plan := by
  unfold FetchPlan.recordFailed
  split
  · next hs => exact absurd hs (h.not_inFlight _ _)
  · rfl

theorem AllAwaiting.nextRequests (h : AllAwaiting plan) :
    plan.nextRequests = ([], plan) := by
  unfold FetchPlan.nextRequests
  cases horder : plan.requestOrder with
  | nil => rfl
  | cons b rest =>
      have hb : b ∈ plan.requestOrder := by
        rw [horder]
        exact List.mem_cons_self
      obtain ⟨cs, n, hready⟩ := FetchPlan.mem_requestOrder.1 hb
      cases h b _ hready

theorem AllAwaiting.want (h : AllAwaiting plan) (cid : Cid) :
    AllAwaiting (plan.want cid) := by
  have hinsert : AllAwaiting { plan with
      chunks := plan.chunks.insert cid .awaitingProviders } := by
    intro b s hs
    rw [BTreeMap.getElem?_insert_ite] at hs
    split at hs
    · cases hs
      rfl
    · exact h b s hs
  unfold FetchPlan.want
  split
  · exact hinsert
  · exact hinsert
  · exact h

theorem AllAwaiting.foldl_want {f : FetchPlan → Cid → FetchPlan}
    (hround : ∀ plan cid, (f plan cid).chunks = (plan.want cid).chunks)
    (cids : List Cid) {plan : FetchPlan} (h : AllAwaiting plan) :
    AllAwaiting (cids.foldl f plan) := by
  induction cids generalizing plan with
  | nil => exact h
  | cons cid cids ih =>
      refine ih ?_
      unfold AllAwaiting
      rw [hround]
      exact h.want cid

/-- Driving a plan of which nothing is known sends nothing. -/
theorem AllAwaiting.drive (h : AllAwaiting plan)
    (hfetch : node.fetch = some plan) : node.driveFetch P = node := by
  rw [driveFetch_running hfetch, h.nextRequests, ← hfetch]
  rfl

/-- An answer to a request changes nothing in a plan that sent none. -/
theorem AllAwaiting.note (h : AllAwaiting plan)
    (hfetch : node.fetch = some plan)
    (received : Bool) :
    node.noteFetchOutcome P a received = node.reportCompletion := by
  have hplan : (if received then plan.recordReceived a
      else plan.recordFailed a) = plan := by
    split
    · exact h.received a
    · exact h.failed a
  rw [noteFetchOutcome_running node hfetch, hplan, ← hfetch]
  exact congrArg reportCompletion (h.drive hfetch)

/-- What a step leaves of a fetch: all of it, perhaps with more to wait for. -/
def Stuck (node next : ChunkNode) : Prop :=
  Deaf next ∧ ∀ plan, node.fetch = some plan → ∀ a ∈ plan.chunks,
    ∃ plan', next.fetch = some plan' ∧ a ∈ plan'.chunks

theorem Deaf.stuck (h : node.Deaf) (hoff : next.discovery = node.discovery)
    (hqueries : next.providerQueries = node.providerQueries)
    (hfetch : next.fetch = node.fetch) : Stuck node next :=
  ⟨⟨hoff.trans h.off, hqueries.trans h.queries,
      by rw [hfetch]; exact h.awaiting⟩,
    fun plan hplan _ ha => ⟨plan, hfetch.trans hplan, ha⟩⟩

/-- A report comes of an empty plan only. -/
theorem Deaf.report (h : node.Deaf) : Stuck node node.reportCompletion := by
  cases hfetch : node.fetch with
  | none =>
      rw [reportCompletion_idle hfetch]
      exact h.stuck rfl rfl rfl
  | some plan =>
      rw [reportCompletion_running hfetch]
      split
      · next hcomplete =>
          refine ⟨⟨h.off, h.queries, fun p hp => by cases hp⟩,
            fun p hp a ha => ?_⟩
          rw [hfetch] at hp
          cases hp
          obtain ⟨s, hs⟩ := (BTreeMap.mem_iff_exists _ _).1 ha
          have hawait := h.awaiting plan hfetch a s hs
          rw [hawait] at hs
          have hopen := FetchPlan.not_isComplete hs rfl
          rw [hcomplete] at hopen
          cases hopen
      · exact h.stuck rfl rfl rfl

theorem Deaf.note (h : node.Deaf) (a : Cid) (received : Bool) :
    Stuck node (node.noteFetchOutcome P a received) := by
  cases hfetch : node.fetch with
  | none =>
      unfold noteFetchOutcome
      rw [hfetch]
      exact h.stuck rfl rfl rfl
  | some plan =>
      rw [(h.awaiting plan hfetch).note hfetch]
      exact h.report

theorem Deaf.verified (h : node.Deaf) (sent : Outstanding) (len : ℕ)
    (heldBefore : Bool) :
    Stuck node (chunkVerified P node sent len heldBefore).2 := by
  have hadmit : (node.admitToFetch P sent.cid len).1 = true ∧
      Stuck node (node.admitToFetch P sent.cid len).2 := by
    unfold admitToFetch
    split
    · exact ⟨rfl, h.stuck rfl rfl rfl⟩
    · next plan hfetch =>
        have hflight := (h.awaiting plan hfetch).not_inFlight (a := sent.cid)
        simp only [FetchPlan.admit_not_inFlight len hflight]
        exact ⟨trivial, h.stuck rfl rfl hfetch.symm⟩
  obtain ⟨hkept, hstuck⟩ := hadmit
  unfold chunkVerified
  simp only [hkept, Bool.not_true]
  obtain ⟨hdeaf, hstays⟩ := hstuck
  have hobserved : Deaf { (node.admitToFetch P sent.cid len).2 with
      observations := (node.admitToFetch P sent.cid
        len).2.observations.recordVerified sent.source } :=
    ⟨hdeaf.off, hdeaf.queries, hdeaf.awaiting⟩
  obtain ⟨hnoted, hstays'⟩ := hobserved.note (P := P) sent.cid true
  refine ⟨hnoted, fun plan hplan a ha => ?_⟩
  obtain ⟨plan', hplan', ha'⟩ := hstays plan hplan a ha
  exact hstays' plan' hplan' a ha'

theorem Deaf.start (h : node.Deaf) (wanted : List Cid)
    (budget : Option (Cid × ℕ)) (requester : PerNetworkIdentity C validKey)
    (concurrency : ℕ) :
    Stuck node (node.startFetch P wanted budget requester concurrency) := by
  have hrunning : AllAwaiting (node.fetch.getD (.new [] concurrency)) := by
    cases hfetch : node.fetch with
    | some plan => exact h.awaiting plan hfetch
    | none =>
        exact fun a s hs => by simp [FetchPlan.new, FetchPlan.extend] at hs
  have hstarted : AllAwaiting (node.startedPlan wanted budget concurrency) ∧
      ∀ a ∈ (node.fetch.getD (.new [] concurrency)).chunks,
        a ∈ (node.startedPlan wanted budget concurrency).chunks := by
    cases budget with
    | none => exact ⟨hrunning.foldl_want FetchPlan.want_freed wanted,
        fun a ha => FetchPlan.mem_extend.2 (.inl ha)⟩
    | some b => exact ⟨hrunning.foldl_want (fun _ _ => rfl)
        (Std.ExtTreeSet.ofList wanted compare : BTreeSet Cid).toList,
        fun a ha => FetchPlan.mem_extendWithin.2 (.inl ha)⟩
  have hlooks : ∀ (cids : List Cid) (mid : ChunkNode), mid.discovery = false →
      cids.foldl findProviders mid = mid := by
    intro cids
    induction cids with
    | nil => exact fun _ _ => rfl
    | cons cid cids ih =>
        intro mid hoff
        have hone : mid.findProviders cid = mid := by
          unfold findProviders
          simp [hoff]
        rw [List.foldl_cons, hone, ih mid hoff]
  rw [startFetch_eq,
    hlooks _ (node.withPlan wanted budget requester concurrency) h.off,
    hstarted.1.drive rfl]
  refine ⟨⟨h.off, h.queries, fun p hp => ?_⟩, fun plan hplan a ha =>
    ⟨_, rfl, hstarted.2 a ?_⟩⟩
  · cases hp
    exact hstarted.1
  · rw [hplan]
    exact ha

theorem Deaf.handle (h : node.Deaf) (event : Event) :
    Stuck node (node.handle C P event).2 := by
  by_cases ha : node.Answers event
  · have herased : ∀ (r : ℕ) (chunks : ChunkStore)
        (observations : AuditedObservations), Deaf { node with
          inflight := node.inflight.erase r, chunks, observations } :=
      fun _ _ _ => ⟨h.off, h.queries, h.awaiting⟩
    cases event with
    | providersProgressed query found last =>
        have hmem : query ∈ node.providerQueries := ha.2
        rw [h.queries] at hmem
        exact absurd hmem Std.ExtTreeMap.not_mem_empty
    | response request response =>
        obtain ⟨sent, hr⟩ := (BTreeMap.mem_iff_exists _ _).1 ha
        show Stuck node (node.chunkResponse C P request response).2
        unfold chunkResponse
        simp only [hr]
        cases response with
        | chunk bytes =>
            cases hinsert : node.chunks.insert C sent.cid bytes with
            | ok chunks =>
                simp only [hinsert]
                exact (herased request chunks node.observations).verified _ _ _
            | error _ =>
                simp only [hinsert]
                exact (herased request node.chunks _).note _ _
        | notHeld => exact (herased request node.chunks _).note _ _
        | refused reason => exact (herased request node.chunks _).note _ _
    | failed peer request error =>
        obtain ⟨sent, hr⟩ := (BTreeMap.mem_iff_exists _ _).1 ha
        show Stuck node (node.chunkFailed P peer request error).2
        unfold chunkFailed
        simp only [hr]
        exact (herased request node.chunks _).note _ _
  · have hnone : ∀ query found, node.gather query found = node := by
      intro query found
      unfold ChunkNode.gather
      rw [h.queries]
      rfl
    rcases handle_stale (C := C) (P := P) ha with heq | ⟨query, found, heq⟩
    · rw [heq]
      exact h.stuck rfl rfl rfl
    · rw [heq, hnone]
      exact h.stuck rfl rfl rfl

theorem Deaf.step (h : node.Deaf) (input : Input C validKey) :
    Stuck node (node.step P input).2 := by
  cases input with
  | fetchChunks cids requester concurrency => exact h.start _ none requester _
  | fetchObject object manifest requester concurrency =>
      show Stuck node
        (node.fetchObject P object manifest requester concurrency).2
      unfold ChunkNode.fetchObject
      split
      · exact h.stuck rfl rfl rfl
      · simp only
        split
        · exact h.stuck rfl rfl rfl
        · show Stuck node
            (if _ then node.startFetch P _ _ requester concurrency else node)
          split
          · exact h.start _ _ requester concurrency
          · exact h.stuck rfl rfl rfl
  | requestChunk source cid requester => exact h.stuck rfl rfl rfl
  | findProviders cid =>
      have hsame : node.findProviders cid = node := by
        unfold ChunkNode.findProviders
        simp [h.off]
      show Stuck node (node.findProviders cid)
      rw [hsame]
      exact h.stuck rfl rfl rfl
  | storeChunk bytes => exact h.stuck rfl rfl rfl
  | forgetChunk cid => exact h.stuck rfl rfl rfl
  | gossiped ledger tiers => exact h.stuck rfl rfl rfl
  | nextEvent event =>
      show Stuck node (node.nextEvent C P event).2
      unfold ChunkNode.nextEvent
      split
      · exact h.stuck rfl rfl rfl
      · cases event with
        | none => exact h.stuck rfl rfl rfl
        | some event => exact h.handle event

/-- On a node that was built without discovery a fetch of anything it does not
hold never ends: whatever it is told, it keeps waiting to learn who holds each
chunk, and never asks anybody for one. -/
theorem fetch_never_ends (P : PeerIds) (network : NetworkId)
    (inputs further : List (Input C validKey)) :
    let node := Machine.state (step P) (.new network false) inputs
    ∀ plan, node.fetch = some plan → ∀ a ∈ plan.chunks,
      ∃ plan', (Machine.state (step P) node further).fetch = some plan' ∧
        plan'.chunks[a]? = some .awaitingProviders := by
  intro node plan hplan a ha
  have hdeaf : node.Deaf := Machine.invariant
    ⟨rfl, rfl, fun p hp => by cases hp⟩ (fun _ i h => (h.step i).1) inputs
  have hstays := Machine.invariant (P := fun next : ChunkNode => next.Deaf ∧
      ∃ plan', next.fetch = some plan' ∧ a ∈ plan'.chunks)
    ⟨hdeaf, plan, hplan, ha⟩ (fun next i h => by
      obtain ⟨hnext, plan', hplan', ha'⟩ := h
      obtain ⟨hdeaf', hkeeps⟩ := hnext.step (P := P) i
      exact ⟨hdeaf', hkeeps plan' hplan' a ha'⟩) further
  obtain ⟨hend, plan', hplan', ha'⟩ := hstays
  obtain ⟨s, hs⟩ := (BTreeMap.mem_iff_exists _ _).1 ha'
  exact ⟨plan', hplan', by rw [hs, hend.awaiting plan' hplan' a s hs]⟩

end Deaf

end ChunkNode

namespace Sample

/-- A member whose key signs everything. -/
def fetcher (n : ℕ) : PerNetworkIdentity .sample (fun _ => true) where
  id := identity n
  sign _ := signature n 0
  valid := rfl
  verifies payload := verify_first n payload

/-- Peers named after the keys of their identities. -/
def peerIds : PeerIds where
  peerId id := ⟨id.key.bytes.toList⟩
  fromPeerId _ := none

/-- Nobody is known to hold the chunk asked for. -/
def nobody : ChunkNode.Input .sample (fun _ => true) :=
  .nextEvent (some (.providersProgressed 0 [] true))

/-- A node that has just asked for one chunk. -/
def asking : ChunkNode :=
  Machine.state (ChunkNode.step peerIds) (.new network true)
    [.fetchChunks [⟨hash 1⟩] (fetcher 1) 1]

end Sample

/-- The lookup finds nobody, over and over: the first answer ends the fetch. -/
theorem fetch_ends_nobody :
    ∃ n received unavailable overBudget,
      (Machine.after (ChunkNode.step Sample.peerIds) Sample.asking
        (fun _ => Sample.nobody) n).pending =
          [.fetchComplete received unavailable overBudget] := by
  have hidle : ∀ n, (Machine.after (ChunkNode.step Sample.peerIds) Sample.asking
      (fun _ => Sample.nobody) (n + 1)).Tidy ∧
      (Machine.after (ChunkNode.step Sample.peerIds) Sample.asking
        (fun _ => Sample.nobody) (n + 1)).fetch = none := by
    intro n
    induction n with
    | zero =>
        refine ⟨(ChunkNode.Sound.step (ChunkNode.sound_run _ _ _) _).tidy, ?_⟩
        decide +kernel
    | succ n ih => exact ChunkNode.idle_step ih.1 ih.2 Sample.nobody rfl
  obtain ⟨n, received, unavailable, overBudget, -, -, hreport, -⟩ :=
    (ChunkNode.fetch_ends Sample.peerIds Sample.network
      [.fetchChunks [⟨Sample.hash 1⟩] (Sample.fetcher 1) 1]
      (fun _ => Sample.nobody) (fun _ => rfl)).2
      (by
        intro n hprogress
        cases n with
        | zero => exact ⟨0, le_rfl, by decide +kernel, rfl, by decide +kernel⟩
        | succ n =>
            obtain ⟨p, hp, -⟩ := ChunkNode.fetchInProgress_iff.1 hprogress
            exact absurd (hp.symm.trans (hidle n).2) (Option.some_ne_none p))
      _ rfl (by decide +kernel)
  exact ⟨n, received, unavailable, overBudget, hreport⟩

/-- One chunk is asked for, and a lookup that was never made is answered. -/
theorem fetch_never_ends_one :
    ∃ plan', (Machine.state (ChunkNode.step Sample.peerIds)
      (Machine.state (ChunkNode.step Sample.peerIds) (.new Sample.network false)
        [.fetchChunks [⟨Sample.hash 1⟩] (Sample.fetcher 1) 1])
      [Sample.nobody]).fetch = some plan' ∧
      plan'.chunks[(⟨Sample.hash 1⟩ : Cid)]? = some .awaitingProviders :=
  ChunkNode.fetch_never_ends Sample.peerIds Sample.network
    [.fetchChunks [⟨Sample.hash 1⟩] (Sample.fetcher 1) 1] [Sample.nobody] _ rfl
    _ (by decide +kernel)

end Intranet
