import Intranet.Lib.Machine
import Intranet.Proofs.FetchBudget
import Intranet.Proofs.FetchOpen
import Intranet.Ref.ChunkNode

/-!
# What a fetch waits for

The node has nothing but answers to go by: it acts on a fetch when a lookup
is over or a request is answered, and at no other time. So a fetch gets stuck
as soon as the plan waits for something nobody will answer. `Driving` says
that it does not: every chunk without providers has a lookup under way, every
chunk in flight a request, and the node knows how to ask for every chunk of
the plan. An answer takes one chunk out of this, which is given up, kept or
put back before the plan is asked what to send next (`Driving.settle`).

All this is kept by every call and every event, whatever arrives in whatever
order (`Sound.step`). What an answer does to the plan, to the store and to what
is still waited for is said once, as `Recorded`.
-/

namespace Intranet

/-- One entry fewer. -/
theorem BTreeMap.size_erase_lt {K V : Type} [LinearOrder K] {m : BTreeMap K V}
    {k : K} (h : k ∈ m) : (m.erase k).size < m.size := by
  have hpos : m.size ≠ 0 := by
    intro hzero
    rw [Std.ExtTreeMap.eq_empty_iff_size_eq_zero.2 hzero] at h
    exact absurd h Std.ExtTreeMap.not_mem_empty
  rw [Std.ExtTreeMap.size_erase, if_pos (Std.ExtTreeMap.contains_iff_mem.2 h)]
  exact Nat.sub_one_lt hpos

namespace ChunkNode

variable {C : Crypto} {validKey : Bytes 32 → Bool} {P : PeerIds}
  {node next : ChunkNode} {plan plan' : FetchPlan} {inPlay : Set (List UInt8)}
  {es : List FetchPlan.Event}

/-! ## What a fetch waits for -/

/-- The numbers the node will give out are new ones, and a request is kept
under the chunk it asks for. -/
structure Tidy (node : ChunkNode) : Prop where
  queries : ∀ q ∈ node.providerQueries, q < node.nextQuery
  requests : ∀ r ∈ node.inflight, r < node.nextRequest
  named : ∀ (a : Cid) (q : ChunkRequest), node.fetchRequests[a]? = some q →
    q.cid = a

/-- The node knows how to ask for every chunk of the plan. A chunk without
providers has a lookup under way, one of `unqueried` apart, and a chunk in
flight a request, one of `unsent` apart. -/
structure Driving (node : ChunkNode) (plan : FetchPlan)
    (unqueried unsent : Set Cid) : Prop where
  books : plan.Books
  asked : ∀ a ∈ plan.chunks, a ∈ node.fetchRequests
  queried : node.discovery = true → ∀ a, a ∉ unqueried →
    plan.chunks[a]? = some .awaitingProviders →
    ∃ (q : ℕ) (found : BTreeSet PeerId),
      node.providerQueries[q]? = some (a, found)
  underway : ∀ a, a ∉ unsent → ∀ cs n,
    plan.chunks[a]? = some (.inFlight cs n) →
    ∃ (r : ℕ) (o : Outstanding), node.inflight[r]? = some o ∧ o.cid = a

/-- A call that wants nothing and issues nothing leaves no more to wait
for. -/
theorem Driving.moves {X Y : Set Cid} (h : Driving node plan X Y)
    (hmoves : FetchPlan.Moves plan es plan')
    (hwanted : ∀ e ∈ es, e.isWanted = false)
    (hissued : es.filterMap FetchPlan.Event.request = []) :
    Driving node plan' X Y where
  books := h.books.moves hmoves
  asked := by
    intro a ha
    refine h.asked a
      ((FetchPlan.moves_mem hmoves ha).resolve_right fun hw => ?_)
    cases hwanted _ hw
  queried := by
    intro hdiscovery a haX ha
    refine h.queried hdiscovery a haX
      ((FetchPlan.moves_awaiting hmoves ha).resolve_right fun hw => ?_)
    cases hwanted _ hw
  underway := by
    intro a haY cs n ha
    refine h.underway a haY cs n
      ((FetchPlan.moves_inFlight hmoves ha).resolve_right fun hi => ?_)
    obtain ⟨source, hmem⟩ := hi
    have hnone := List.filterMap_eq_nil_iff.1 hissued _ hmem
    cases hnone

/-- The chunk an answer was for does not wait any more. -/
theorem Driving.settle {X Y : Set Cid} (h : Driving node plan X Y)
    (hX : ∀ a ∈ X, plan.chunks[a]? ≠ some .awaitingProviders)
    (hY : ∀ a ∈ Y, ∀ cs n, plan.chunks[a]? ≠ some (.inFlight cs n)) :
    Driving node plan ∅ ∅ where
  books := h.books
  asked := h.asked
  queried := fun hdiscovery a _ ha =>
    h.queried hdiscovery a (fun haX => hX a haX ha) ha
  underway := fun a _ cs n ha =>
    h.underway a (fun haY => hY a haY cs n ha) cs n ha

/-- Nothing is left to send. -/
structure Driven (node : ChunkNode) : Prop where
  tidy : node.Tidy
  driving : ∀ plan, node.fetch = some plan → Driving node plan ∅ ∅
  stopped : ∀ plan, node.fetch = some plan → plan.nextRequests.1 = []

/-- How things stand between two inputs. -/
structure Sound (node : ChunkNode) : Prop extends Driven node where
  opened : ∀ plan, node.fetch = some plan → plan.Open

/-- What the fetch of a node depends on. -/
def work (node : ChunkNode) :=
  (node.discovery, node.nextQuery, node.providerQueries, node.nextRequest,
    node.inflight, node.fetch, node.fetchRequests)

theorem Tidy.of_work (h : node.Tidy) (hwork : next.work = node.work) :
    next.Tidy := by
  simp only [work, Prod.mk.injEq] at hwork
  obtain ⟨-, hnq, hq, hnr, hr, -, hreq⟩ := hwork
  constructor
  · rw [hq, hnq]
    exact h.queries
  · rw [hr, hnr]
    exact h.requests
  · rw [hreq]
    exact h.named

theorem Driving.of_work {X Y : Set Cid} (h : Driving node plan X Y)
    (hwork : next.work = node.work) : Driving next plan X Y := by
  simp only [work, Prod.mk.injEq] at hwork
  obtain ⟨hd, -, hq, -, hr, -, hreq⟩ := hwork
  constructor
  · exact h.books
  · rw [hreq]
    exact h.asked
  · rw [hd, hq]
    exact h.queried
  · rw [hr]
    exact h.underway

theorem Driven.of_work (h : node.Driven) (hwork : next.work = node.work) :
    next.Driven := by
  have hfetch : next.fetch = node.fetch := congrArg (·.2.2.2.2.2.1) hwork
  constructor
  · exact h.tidy.of_work hwork
  · rw [hfetch]
    exact fun plan hplan => (h.driving plan hplan).of_work hwork
  · rw [hfetch]
    exact h.stopped

theorem Sound.of_work (h : node.Sound) (hwork : next.work = node.work) :
    next.Sound := by
  refine ⟨h.toDriven.of_work hwork, ?_⟩
  have hfetch : next.fetch = node.fetch := congrArg (·.2.2.2.2.2.1) hwork
  rw [hfetch]
  exact h.opened

/-! ## Sending -/

/-- Requests for the chunks listed went out, and nothing else happened. -/
structure Sends (node next : ChunkNode) (cids : List Cid) : Prop where
  frame : next = { node with
    sent := next.sent, nextRequest := next.nextRequest,
    inflight := next.inflight }
  kept : ∀ (r : ℕ) (o : Outstanding), node.inflight[r]? = some o →
    next.inflight[r]? = some o
  placed : ∀ a ∈ cids, ∃ (r : ℕ) (o : Outstanding),
    next.inflight[r]? = some o ∧ o.cid = a
  size : next.inflight.size = node.inflight.size + cids.length
  fresh : ∀ r ∈ next.inflight, r < next.nextRequest

theorem Sends.none (h : node.Tidy) : Sends node node [] :=
  ⟨rfl, fun _ _ h => h, by simp, rfl, h.requests⟩

theorem sends_chunkRequest (h : node.Tidy) (source : PerNetworkIdentityId)
    (request : ChunkRequest) :
    Sends node (node.sendChunkRequest P source request) [request.cid] := by
  have hnew : node.nextRequest ∉ node.inflight := fun hmem =>
    Nat.lt_irrefl _ (h.requests _ hmem)
  refine ⟨rfl, fun r o hr => ?_, ?_, ?_, ?_⟩
  · show (node.inflight.insert node.nextRequest _)[r]? = some o
    rw [BTreeMap.getElem?_insert_ite, if_neg, hr]
    intro heq
    exact hnew (heq ▸ (BTreeMap.mem_iff_exists _ _).2 ⟨o, hr⟩)
  · intro a ha
    rw [List.mem_singleton.1 ha]
    refine ⟨node.nextRequest, ⟨P.peerId source, source, request.cid⟩, ?_, rfl⟩
    simp [sendChunkRequest]
  · show (node.inflight.insert node.nextRequest _).size = _
    rw [Std.ExtTreeMap.size_insert]
    exact if_neg (by simpa using hnew)
  · intro r hr
    show r < node.nextRequest + 1
    rcases (BTreeMap.mem_insert_iff _ _ _ _).1 hr with rfl | hr
    · exact Nat.lt_succ_self _
    · exact Nat.lt_succ_of_lt (h.requests r hr)

theorem Sends.append {mid : ChunkNode} {xs ys : List Cid}
    (h : Sends node mid xs) (hnext : Sends mid next ys) :
    Sends node next (xs ++ ys) where
  frame := by
    have hframe := hnext.frame
    rw [h.frame] at hframe
    exact hframe
  kept := fun r o hr => hnext.kept r o (h.kept r o hr)
  placed := by
    intro a ha
    rcases List.mem_append.1 ha with ha | ha
    · obtain ⟨r, o, hr, ho⟩ := h.placed a ha
      exact ⟨r, o, hnext.kept r o hr, ho⟩
    · exact hnext.placed a ha
  size := by
    have hfirst := h.size
    have hrest := hnext.size
    rw [List.length_append]
    omega
  fresh := hnext.fresh

theorem Sends.tidy {xs : List Cid} (h : Sends node next xs)
    (htidy : node.Tidy) : next.Tidy := by
  refine ⟨?_, h.fresh, ?_⟩
  · rw [h.frame]
    exact htidy.queries
  · rw [h.frame]
    exact htidy.named

theorem Sends.driving {xs : List Cid} {X Y : Set Cid} (h : Sends node next xs)
    (hdriving : Driving node plan X Y) : Driving next plan X Y where
  books := hdriving.books
  asked := by
    rw [h.frame]
    exact hdriving.asked
  queried := by
    rw [h.frame]
    exact hdriving.queried
  underway := by
    intro a ha cs n hflight
    obtain ⟨r, o, hr, ho⟩ := hdriving.underway a ha cs n hflight
    exact ⟨r, o, h.kept r o hr, ho⟩

/-- Every request the plan issues can be sent. -/
theorem sends_foldl (issued : List (Cid × PerNetworkIdentityId))
    (hasked : ∀ r ∈ issued, r.1 ∈ node.fetchRequests) (h : node.Tidy) :
    Sends node (issued.foldl (sendNext P) node) (issued.map Prod.fst) := by
  induction issued generalizing node with
  | nil => exact .none h
  | cons r rest ih =>
      obtain ⟨q, hq⟩ := (BTreeMap.mem_iff_exists _ _).1
        (hasked r List.mem_cons_self)
      have hone : Sends node (node.sendNext P r) [r.1] := by
        unfold sendNext
        rw [hq, ← h.named _ _ hq]
        exact sends_chunkRequest h r.2 q
      refine hone.append (ih (fun r' hr' => ?_) (hone.tidy h))
      rw [hone.frame]
      exact hasked r' (List.mem_cons_of_mem _ hr')

theorem driveFetch_running (hfetch : node.fetch = some plan) :
    node.driveFetch P = plan.nextRequests.1.foldl (sendNext P)
      { node with fetch := some plan.nextRequests.2 } := by
  unfold driveFetch
  rw [hfetch]

theorem Driving.sends (h : Driving node plan ∅ ∅)
    (hfetch : node.fetch = some plan) (htidy : node.Tidy) :
    Sends { node with fetch := some plan.nextRequests.2 } (node.driveFetch P)
      (plan.nextRequests.1.map Prod.fst) := by
  rw [driveFetch_running hfetch]
  refine sends_foldl _ (fun r hr => ?_)
    ⟨htidy.queries, htidy.requests, htidy.named⟩
  obtain ⟨cs, n, hready⟩ := (FetchPlan.issue_spec _ plan).1 r hr
  exact h.asked r.1 ((BTreeMap.mem_iff_exists _ _).2 ⟨_, hready⟩)

/-- Sending what is next leaves every chunk in flight with its request. -/
theorem Driving.drive (h : Driving node plan ∅ ∅)
    (hfetch : node.fetch = some plan) (htidy : node.Tidy) :
    Driving (node.driveFetch P) plan.nextRequests.2 ∅ ∅ := by
  have hsends := h.sends (P := P) hfetch htidy
  have hmoves := FetchPlan.moves_issue plan.requestOrder plan
  have hissued : ∀ a, FetchPlan.Event.wanted a ∉
      (FetchPlan.issue plan.requestOrder plan).1.map
        (fun r => FetchPlan.Event.issued r.1 r.2) := by
    intro a ha
    obtain ⟨r, -, hr⟩ := List.mem_map.1 ha
    cases hr
  constructor
  · exact h.books.moves hmoves
  · intro a ha
    rw [hsends.frame]
    exact h.asked a ((FetchPlan.moves_mem hmoves ha).resolve_right (hissued a))
  · intro hdiscovery a hnone ha
    rw [hsends.frame] at hdiscovery ⊢
    exact h.queried hdiscovery a hnone
      ((FetchPlan.moves_awaiting hmoves ha).resolve_right (hissued a))
  · intro a hnone cs n ha
    rcases FetchPlan.moves_inFlight hmoves ha with hold | hnew
    · obtain ⟨r, o, hr, ho⟩ := h.underway a hnone cs n hold
      exact ⟨r, o, hsends.kept r o hr, ho⟩
    · obtain ⟨source, hmem⟩ := hnew
      obtain ⟨r, hr, heq⟩ := List.mem_map.1 hmem
      cases heq
      exact hsends.placed r.1 (List.mem_map_of_mem hr)

theorem Driving.driven (h : Driving node plan ∅ ∅)
    (hfetch : node.fetch = some plan) (htidy : node.Tidy) :
    (node.driveFetch P).Driven := by
  have hsends := h.sends (P := P) hfetch htidy
  have hnext : (node.driveFetch P).fetch = some plan.nextRequests.2 := by
    rw [hsends.frame]
  refine ⟨hsends.tidy ⟨htidy.queries, htidy.requests, htidy.named⟩, ?_, ?_⟩
  · rw [hnext]
    intro p hp
    cases hp
    exact h.drive hfetch htidy
  · rw [hnext]
    intro p hp
    cases hp
    exact h.books.nextRequests_again

/-! ## The end of a fetch -/

/-- The report of a plan that is complete. -/
def completion (plan : FetchPlan) : ChunkReport :=
  .fetchComplete plan.received plan.unavailable plan.overBudget

theorem reportCompletion_running (hfetch : node.fetch = some plan) :
    node.reportCompletion =
      if plan.isComplete = true then
        { node with fetch := none, fetchRequests := ∅,
                    pending := node.pending ++ [completion plan] }
      else node := by
  unfold reportCompletion completedFetch
  rw [hfetch]
  cases hcomplete : plan.isComplete <;> simp [hcomplete, completion]

theorem reportCompletion_idle (hfetch : node.fetch = none) :
    node.reportCompletion = node := by
  unfold reportCompletion completedFetch
  rw [hfetch]

theorem Driven.report (h : node.Driven) : node.reportCompletion.Sound := by
  cases hfetch : node.fetch with
  | none =>
      rw [reportCompletion_idle hfetch]
      refine ⟨h, fun plan hplan => ?_⟩
      rw [hfetch] at hplan
      cases hplan
  | some plan =>
      rw [reportCompletion_running hfetch]
      split
      · refine ⟨⟨⟨h.tidy.queries, h.tidy.requests, ?_⟩, ?_, ?_⟩, ?_⟩
        · intro a q hq
          simp at hq
        · exact fun p hp => by cases hp
        · exact fun p hp => by cases hp
        · exact fun p hp => by cases hp
      · next hopen =>
          refine ⟨h, fun p hp => ?_⟩
          rw [hfetch] at hp
          cases hp
          exact FetchPlan.open_of_not_isComplete (by simpa using hopen)

/-! ## Lookups -/

/-- Lookups for the chunks listed were started, and nothing else happened. -/
structure Looks (node next : ChunkNode) (cids : List Cid) : Prop where
  frame : next = { node with
    nextQuery := next.nextQuery, providerQueries := next.providerQueries }
  kept : ∀ (q : ℕ) (v : Cid × BTreeSet PeerId),
    node.providerQueries[q]? = some v → next.providerQueries[q]? = some v
  placed : node.discovery = true → ∀ a ∈ cids,
    ∃ (q : ℕ) (found : BTreeSet PeerId),
      next.providerQueries[q]? = some (a, found)
  fresh : ∀ q ∈ next.providerQueries, q < next.nextQuery

theorem looks_findProviders (h : node.Tidy) (cid : Cid) :
    Looks node (node.findProviders cid) [cid] := by
  unfold findProviders
  split
  · next hoff =>
      refine ⟨rfl, fun _ _ hq => hq, fun hon => ?_, h.queries⟩
      rw [hon] at hoff
      cases hoff
  · have hnew : node.nextQuery ∉ node.providerQueries := fun hmem =>
      Nat.lt_irrefl _ (h.queries _ hmem)
    refine ⟨rfl, fun q v hq => ?_, fun _ a ha => ?_, fun q hq => ?_⟩
    · rw [BTreeMap.getElem?_insert_ite, if_neg, hq]
      intro heq
      exact hnew (heq ▸ (BTreeMap.mem_iff_exists _ _).2 ⟨v, hq⟩)
    · rw [List.mem_singleton.1 ha]
      exact ⟨node.nextQuery, ∅, by simp⟩
    · show q < node.nextQuery + 1
      rcases (BTreeMap.mem_insert_iff _ _ _ _).1 hq with rfl | hq
      · exact Nat.lt_succ_self _
      · exact Nat.lt_succ_of_lt (h.queries q hq)

theorem Looks.tidy {cids : List Cid} (h : Looks node next cids)
    (htidy : node.Tidy) : next.Tidy := by
  refine ⟨h.fresh, ?_, ?_⟩
  · rw [h.frame]
    exact htidy.requests
  · rw [h.frame]
    exact htidy.named

theorem Looks.append {mid : ChunkNode} {xs ys : List Cid}
    (h : Looks node mid xs) (hnext : Looks mid next ys) :
    Looks node next (xs ++ ys) where
  frame := by
    have hframe := hnext.frame
    rw [h.frame] at hframe
    exact hframe
  kept := fun q v hq => hnext.kept q v (h.kept q v hq)
  placed := by
    intro hon a ha
    rcases List.mem_append.1 ha with ha | ha
    · obtain ⟨q, found, hq⟩ := h.placed hon a ha
      exact ⟨q, found, hnext.kept q _ hq⟩
    · refine hnext.placed ?_ a ha
      rw [h.frame]
      exact hon
  fresh := hnext.fresh

theorem looks_foldl (cids : List Cid) (h : node.Tidy) :
    Looks node (cids.foldl findProviders node) cids := by
  induction cids generalizing node with
  | nil => exact ⟨rfl, fun _ _ hq => hq, by simp, h.queries⟩
  | cons cid cids ih =>
      have hone := looks_findProviders h cid
      exact hone.append (ih (hone.tidy h))

theorem Looks.driving {cids : List Cid} {X Y : Set Cid}
    (h : Looks node next cids) (hdriving : Driving node plan X Y) :
    Driving next plan (X \ {a | a ∈ cids}) Y where
  books := hdriving.books
  asked := by
    rw [h.frame]
    exact hdriving.asked
  queried := by
    intro hon a ha hawait
    rw [h.frame] at hon
    by_cases hmem : a ∈ cids
    · exact h.placed hon a hmem
    · obtain ⟨q, found, hq⟩ :=
        hdriving.queried hon a (fun haX => ha ⟨haX, hmem⟩) hawait
      exact ⟨q, found, h.kept q _ hq⟩
  underway := by
    rw [h.frame]
    exact hdriving.underway

/-! ## Starting -/

variable (requester : PerNetworkIdentity C validKey)

/-- The chunks asked for get a request each, and none changes. -/
theorem prepared (wanted : List Cid) (requests : BTreeMap Cid ChunkRequest)
    (hnamed : ∀ (a : Cid) (q : ChunkRequest), requests[a]? = some q →
      q.cid = a) :
    (∀ (a : Cid) (q : ChunkRequest),
      (wanted.foldl (prepare requester) requests)[a]? = some q → q.cid = a) ∧
    ∀ a, a ∈ wanted.foldl (prepare requester) requests ↔
      a ∈ requests ∨ a ∈ wanted := by
  induction wanted generalizing requests with
  | nil => exact ⟨hnamed, by simp⟩
  | cons cid wanted ih =>
      have hone : (∀ (a : Cid) (q : ChunkRequest),
          (prepare requester requests cid)[a]? = some q → q.cid = a) ∧
          ∀ a, a ∈ prepare requester requests cid ↔ a ∈ requests ∨ a = cid := by
        unfold prepare
        split
        · refine ⟨fun a q hq => ?_, fun a => ?_⟩
          · rw [BTreeMap.getElem?_insert_ite] at hq
            split at hq
            · next heq =>
                cases hq
                exact heq
            · exact hnamed a q hq
          · rw [BTreeMap.mem_insert_iff]
            tauto
        · next q hq =>
            refine ⟨hnamed, fun a => ⟨.inl, fun h => h.elim id fun heq => ?_⟩⟩
            rw [heq, BTreeMap.mem_iff_exists]
            exact ⟨q, hq⟩
      obtain ⟨hnames, hmem⟩ := ih _ hone.1
      refine ⟨hnames, fun a => ?_⟩
      rw [List.foldl_cons, hmem, hone.2, List.mem_cons, or_assoc]

/-- The plan a start leaves in the node before anything is sent. -/
def startedPlan (node : ChunkNode) (wanted : List Cid)
    (budget : Option (Cid × ℕ)) (concurrency : ℕ) : FetchPlan :=
  let running := node.fetch.getD (.new [] concurrency)
  budget.elim (running.extend wanted) fun b =>
    running.extendWithin b.1 wanted b.2

/-- The node with that plan and the requests for it. -/
def withPlan (node : ChunkNode) (wanted : List Cid)
    (budget : Option (Cid × ℕ)) (requester : PerNetworkIdentity C validKey)
    (concurrency : ℕ) : ChunkNode :=
  { node with
    fetchRequests := wanted.foldl (prepare requester) node.fetchRequests
    fetch := some (node.startedPlan wanted budget concurrency) }

theorem startFetch_eq (wanted : List Cid) (budget : Option (Cid × ℕ))
    (concurrency : ℕ) :
    node.startFetch P wanted budget requester concurrency =
      ((node.startedPlan wanted budget concurrency).providersNeeded.foldl
        findProviders (node.withPlan wanted budget requester
          concurrency)).driveFetch P := by
  unfold startFetch withPlan startedPlan
  cases budget with
  | none => rfl
  | some b => rfl

theorem Sound.startedPlan (h : node.Sound) (wanted : List Cid)
    (budget : Option (Cid × ℕ)) (concurrency : ℕ) :
    Driving (node.withPlan wanted budget requester concurrency)
      (node.startedPlan wanted budget concurrency) Set.univ ∅ ∧
    (node.startedPlan wanted budget concurrency).Open := by
  -- the plan that is extended, new or not
  have hrunning : Driving node (node.fetch.getD (.new [] concurrency)) ∅ ∅ ∧
      (node.fetch.getD (.new [] concurrency)).Open := by
    cases hfetch : node.fetch with
    | some plan => exact ⟨h.driving plan hfetch, h.opened plan hfetch⟩
    | none =>
        refine ⟨⟨FetchPlan.books_new [] concurrency, ?_, ?_, ?_⟩, ?_⟩
        · intro a ha
          exact absurd ha (by simp [FetchPlan.new, FetchPlan.extend])
        · intro _ a _ ha
          simp [FetchPlan.new, FetchPlan.extend] at ha
        · intro a _ cs n ha
          simp [FetchPlan.new, FetchPlan.extend] at ha
        · intro a ha
          exact absurd ha (by simp [FetchPlan.new, FetchPlan.extend])
  obtain ⟨hdriving, hopen⟩ := hrunning
  have hmem := (prepared requester wanted _ h.tidy.named).2
  -- either way chunks are wanted, and only those listed
  have hextended : ∀ {extended : FetchPlan} {es : List FetchPlan.Event},
      FetchPlan.Moves (node.fetch.getD (.new [] concurrency)) es extended →
      (∀ e ∈ es, e.isWanted = true) →
      (∀ a, a ∈ extended.chunks ↔
        a ∈ (node.fetch.getD (.new [] concurrency)).chunks ∨ a ∈ wanted) →
      Driving (node.withPlan wanted budget requester concurrency) extended
        Set.univ ∅ := by
    intro extended es hmoves hes hchunks
    refine ⟨hdriving.books.moves hmoves, fun a ha => ?_,
      fun _ a ha => absurd (Set.mem_univ a) ha, fun a _ cs n ha => ?_⟩
    · exact (hmem a).2 (((hchunks a).1 ha).imp (hdriving.asked a) id)
    · refine hdriving.underway a (Set.notMem_empty a) cs n
        ((FetchPlan.moves_inFlight hmoves ha).resolve_right fun hi => ?_)
      obtain ⟨source, hissued⟩ := hi
      cases hes _ hissued
  cases budget with
  | some b =>
      obtain ⟨es, hes, hmoves⟩ := FetchPlan.moves_extendWithin
        (node.fetch.getD (.new [] concurrency)) b.1 wanted b.2
      exact ⟨hextended hmoves hes fun a => FetchPlan.mem_extendWithin,
        hopen.extendWithin b.1 wanted b.2⟩
  | none =>
      obtain ⟨es, hes, hmoves⟩ := FetchPlan.moves_extend
        (node.fetch.getD (.new [] concurrency)) wanted
      exact ⟨hextended hmoves hes fun a => FetchPlan.mem_extend,
        hopen.extend wanted⟩

/-- The plan a start leaves behind, after what could be sent was. -/
theorem startFetch_spec (h : node.Sound) (wanted : List Cid)
    (budget : Option (Cid × ℕ)) (concurrency : ℕ) :
    (node.startFetch P wanted budget requester concurrency).Driven ∧
      (node.startFetch P wanted budget requester concurrency).fetch =
        some (node.startedPlan wanted budget concurrency).nextRequests.2 := by
  obtain ⟨hdriving, -⟩ := h.startedPlan requester wanted budget concurrency
  have htidy : (node.withPlan wanted budget requester concurrency).Tidy :=
    ⟨h.tidy.queries, h.tidy.requests,
      (prepared requester wanted _ h.tidy.named).1⟩
  have hlooks := looks_foldl
    (node.startedPlan wanted budget concurrency).providersNeeded htidy
  -- every chunk without providers has just been looked up
  have hready := (hlooks.driving hdriving).settle
    (fun a ha hawait => ha.2 (by
      refine List.mem_map.2 ⟨(a, .awaitingProviders), List.mem_filter.2 ?_, rfl⟩
      exact ⟨(BTreeMap.mem_toList_iff _ _).2 hawait, rfl⟩))
    (fun a ha => absurd ha (Set.notMem_empty a))
  have hfetch :
    ((node.startedPlan wanted budget concurrency).providersNeeded.foldl
      findProviders (node.withPlan wanted budget requester concurrency)).fetch =
      some (node.startedPlan wanted budget concurrency) := by
    rw [hlooks.frame]
    rfl
  rw [startFetch_eq]
  refine ⟨hready.driven hfetch (hlooks.tidy htidy), ?_⟩
  rw [(hready.sends hfetch (hlooks.tidy htidy)).frame]

theorem Sound.startFetch (h : node.Sound) (wanted : List Cid)
    (budget : Option (Cid × ℕ)) (concurrency : ℕ) :
    (node.startFetch P wanted budget requester concurrency).Sound := by
  obtain ⟨hdriven, hfetch⟩ :=
    startFetch_spec (P := P) requester h wanted budget concurrency
  refine ⟨hdriven, fun plan hplan => ?_⟩
  rw [hfetch] at hplan
  cases hplan
  exact (h.startedPlan requester wanted budget concurrency).2.nextRequests

omit requester

/-! ## Answers -/

/-- What a node still has to hear or to send: lookups first, then requests
under way and sources left together. -/
def load (node : ChunkNode) : ℕ ×ₗ ℕ :=
  toLex (node.providerQueries.size,
    node.inflight.size + node.fetch.elim 0 FetchPlan.credits)

/-- Whether an event answers something the node waits for. -/
def Answers (node : ChunkNode) : Event → Prop
  | .providersProgressed query _ last =>
      last = true ∧ query ∈ node.providerQueries
  | .response request _ => request ∈ node.inflight
  | .failed _ request _ => request ∈ node.inflight

/-- The two plans are about the same chunks. -/
def SameChunks (plan plan' : FetchPlan) : Prop :=
  ∀ a, a ∈ plan'.chunks ↔ a ∈ plan.chunks

theorem sameChunks_of_moves {es : List FetchPlan.Event}
    (hmoves : FetchPlan.Moves plan es plan')
    (hwanted : ∀ e ∈ es, e.isWanted = false) : SameChunks plan plan' := by
  refine fun a => ⟨fun ha => ?_, FetchPlan.moves_mem_of_mem hmoves⟩
  refine (FetchPlan.moves_mem hmoves ha).resolve_right fun hw => ?_
  cases hwanted _ hw

/-- How an answer is put on record while `plan` runs: what was waited for is
gone, the outcome is in the plan, and what the plan calls done is in the
store. -/
structure Recorded (C : Crypto) (inPlay : Set (List UInt8)) (node : ChunkNode)
    (plan : FetchPlan) (mid : ChunkNode) (plan' : FetchPlan) : Prop where
  fetch : mid.fetch = some plan'
  tidy : mid.Tidy
  driving : Driving mid plan' ∅ ∅
  pending : mid.pending = node.pending
  same : SameChunks plan plan'
  load : mid.load < node.load
  inflight : ∀ (r : ℕ) (o : Outstanding), mid.inflight[r]? = some o →
    node.inflight[r]? = some o
  fetching : FetchPlan.Fetching C inPlay plan plan'
  stored : ∀ a, node.chunks.has a = true → mid.chunks.has a = true
  done : ∀ a, plan'.chunks[a]? = some .done →
    plan.chunks[a]? = some .done ∨ mid.chunks.has a = true

/-- How an answer is taken while `plan` runs. After it is on record the node
sends what is next and looks whether the fetch is over. -/
def Taken (C : Crypto) (P : PeerIds) (inPlay : Set (List UInt8))
    (node : ChunkNode) (plan : FetchPlan) (next : ChunkNode) : Prop :=
  ∃ mid plan', Recorded C inPlay node plan mid plan' ∧
    next = (mid.driveFetch P).reportCompletion

/-- What nobody waits for any more changes nothing a fetch depends on. -/
theorem Tidy.sound (h : node.Tidy) (hfetch : node.fetch = none) :
    node.Sound := by
  refine ⟨⟨h, fun plan hplan => ?_, fun plan hplan => ?_⟩,
    fun plan hplan => ?_⟩ <;>
  · rw [hfetch] at hplan
    cases hplan

/-! ### To a request -/

theorem of_erase {r q : ℕ} {o : Outstanding}
    (h : (node.inflight.erase r)[q]? = some o) :
    node.inflight[q]? = some o := by
  rw [BTreeMap.getElem?_erase_ite] at h
  split at h
  · cases h
  · exact h

theorem Tidy.answered (h : node.Tidy) (r : ℕ) :
    Tidy { node with inflight := node.inflight.erase r } :=
  ⟨h.queries, fun q hq => h.requests q (Std.ExtTreeMap.mem_of_mem_erase hq),
    h.named⟩

theorem Driving.answered (h : Driving node plan ∅ ∅) {r : ℕ}
    {sent : Outstanding} (hr : node.inflight[r]? = some sent) :
    Driving { node with inflight := node.inflight.erase r } plan ∅
      {sent.cid} where
  books := h.books
  asked := h.asked
  queried := h.queried
  underway := by
    intro a ha cs n hflight
    obtain ⟨q, o, hq, ho⟩ := h.underway a (Set.notMem_empty a) cs n hflight
    refine ⟨q, o, ?_, ho⟩
    show (node.inflight.erase r)[q]? = some o
    rw [BTreeMap.getElem?_erase_ite, if_neg, hq]
    rintro rfl
    rw [hr] at hq
    cases hq
    exact ha ho.symm

/-- A request that is answered, whatever became of its chunk. -/
theorem Sound.taken_request (h : node.Sound) (hfetch : node.fetch = some plan)
    {r : ℕ} {sent : Outstanding} (hr : node.inflight[r]? = some sent)
    {es : List FetchPlan.Event} (hmoves : FetchPlan.Moves plan es plan')
    (hwanted : ∀ e ∈ es, e.isWanted = false)
    (hanswered : ∀ e ∈ es, e.isAnswered = false)
    (hissued : es.filterMap FetchPlan.Event.request = [])
    (hsettled : ∀ cs n, plan'.chunks[sent.cid]? ≠ some (.inFlight cs n))
    {chunks : ChunkStore} (observations : AuditedObservations)
    (overrunObjects : BTreeSet Cid)
    (hfetching : FetchPlan.Fetching C inPlay plan plan')
    (hstored : ∀ a, node.chunks.has a = true → chunks.has a = true)
    (hdone : ∀ a, plan'.chunks[a]? = some .done →
      plan.chunks[a]? = some .done ∨ chunks.has a = true) :
    Taken C P inPlay node plan (driveFetch P { node with
      inflight := node.inflight.erase r, fetch := some plan', chunks,
      observations, overrunObjects }).reportCompletion := by
  have hready := (((h.driving plan hfetch).answered hr).moves hmoves hwanted
    hissued).settle (fun a ha => absurd ha (Set.notMem_empty a))
      (fun a ha => by rw [ha]; exact hsettled)
  refine ⟨{ node with
      inflight := node.inflight.erase r, fetch := some plan', chunks,
      observations, overrunObjects }, plan', ?_, rfl⟩
  refine ⟨rfl, ⟨h.tidy.queries, (h.tidy.answered r).requests, h.tidy.named⟩,
    ⟨hready.books, hready.asked, hready.queried, hready.underway⟩, rfl,
    sameChunks_of_moves hmoves hwanted, ?_, fun _ _ => of_erase, hfetching,
    hstored, hdone⟩
  have hcredits := (FetchPlan.moves_totals hmoves hwanted).2
    (List.countP_eq_zero.2 fun e he => by simp [hanswered e he])
  have hsize := BTreeMap.size_erase_lt
    ((BTreeMap.mem_iff_exists _ _).2 ⟨_, hr⟩)
  refine Prod.Lex.toLex_lt_toLex.2 (.inr ⟨rfl, ?_⟩)
  show (node.inflight.erase r).size + plan'.credits <
    node.inflight.size + node.fetch.elim 0 FetchPlan.credits
  rw [hfetch]
  simp only [Option.elim]
  omega

variable {a : Cid}

theorem recordReceived_settled (plan : FetchPlan) (a : Cid) :
    ∀ cs n, (plan.recordReceived a).chunks[a]? ≠ some (.inFlight cs n) := by
  intro cs n hflight
  unfold FetchPlan.recordReceived at hflight
  split at hflight
  · simp at hflight
  · next hs => exact hs _ _ hflight

theorem recordFailed_settled (plan : FetchPlan) (a : Cid) :
    ∀ cs n, (plan.recordFailed a).chunks[a]? ≠ some (.inFlight cs n) := by
  intro cs n hflight
  unfold FetchPlan.recordFailed at hflight
  split at hflight
  · simp only [BTreeMap.getElem?_insert_ite, if_true] at hflight
    split at hflight
    · cases hflight
    · split at hflight <;> cases hflight
  · next hs => exact hs _ _ hflight

theorem recordReceived_done {b : Cid}
    (hb : (plan.recordReceived a).chunks[b]? = some .done) :
    plan.chunks[b]? = some .done ∨ b = a := by
  unfold FetchPlan.recordReceived at hb
  split at hb
  · rw [BTreeMap.getElem?_insert_ite] at hb
    split at hb
    · next heq => exact .inr heq.symm
    · exact .inl hb
  · exact .inl hb

theorem recordFailed_done {b : Cid}
    (hb : (plan.recordFailed a).chunks[b]? = some .done) :
    plan.chunks[b]? = some .done := by
  unfold FetchPlan.recordFailed at hb
  split at hb
  · rw [BTreeMap.getElem?_insert_ite] at hb
    split at hb
    · split at hb
      · cases hb
      · split at hb <;> cases hb
    · exact hb
  · exact hb

/-- What is abandoned is not done. -/
theorem foldl_abandon_done {b : Cid} (doomed : List Cid)
    (chunks : BTreeMap Cid ChunkState)
    (hb : (doomed.foldl FetchPlan.abandon chunks)[b]? = some .done) :
    chunks[b]? = some .done := by
  induction doomed generalizing chunks with
  | nil => exact hb
  | cons cid doomed ih =>
      have hone := ih _ hb
      unfold FetchPlan.abandon at hone
      split at hone
      · rw [BTreeMap.getElem?_insert_ite] at hone
        split at hone
        · cases hone
        · exact hone
      · rw [BTreeMap.getElem?_insert_ite] at hone
        split at hone
        · cases hone
        · exact hone
      · exact hone

theorem admitChunk_done {b : Cid} {bytes : ℕ}
    (hb : (plan.admitChunk a bytes).2.chunks[b]? = some .done) :
    plan.chunks[b]? = some .done := by
  have hcharged : (plan.afterCharge a bytes).chunks[b]? = some .done →
      plan.chunks[b]? = some .done := by
    intro hc
    unfold FetchPlan.afterCharge at hc
    simp only at hc
    split at hc
    · exact foldl_abandon_done _ _ hc
    · exact hc
  by_cases hflight : ∃ cs n, plan.chunks[a]? = some (.inFlight cs n)
  · obtain ⟨cs, n, hflight⟩ := hflight
    rw [FetchPlan.admit_inFlight bytes hflight] at hb
    split at hb
    · exact hcharged hb
    · rw [FetchPlan.getElem?_put] at hb
      split at hb
      · cases hb
      · exact hcharged hb
  · rwa [FetchPlan.admit_not_inFlight bytes
      fun cs n hs => hflight ⟨cs, n, hs⟩] at hb

theorem admitChunk_refused {bytes : ℕ}
    (h : (plan.admitChunk a bytes).1 = false) :
    ∀ cs n, (plan.admitChunk a bytes).2.chunks[a]? ≠ some (.inFlight cs n) := by
  intro cs n
  by_cases hflight : ∃ cs n, plan.chunks[a]? = some (.inFlight cs n)
  · obtain ⟨cs', n', hflight⟩ := hflight
    rw [FetchPlan.admit_inFlight bytes hflight] at h ⊢
    split at h
    · cases h
    · next hroom =>
        rw [if_neg hroom, FetchPlan.getElem?_put, if_pos rfl]
        exact fun heq => by cases heq
  · rw [FetchPlan.admit_not_inFlight bytes fun cs n hs => hflight ⟨cs, n, hs⟩]
      at h
    cases h

theorem noteFetchOutcome_running (node : ChunkNode)
    (hfetch : node.fetch = some plan) (a : Cid) (received : Bool) :
    node.noteFetchOutcome P a received =
      (driveFetch P { node with
        fetch := some (if received then plan.recordReceived a
          else plan.recordFailed a) }).reportCompletion := by
  unfold noteFetchOutcome
  rw [hfetch]

/-- The failure of a request. -/
theorem Sound.taken_failed (h : node.Sound) (hfetch : node.fetch = some plan)
    {r : ℕ} {sent : Outstanding} (hr : node.inflight[r]? = some sent)
    (observations : AuditedObservations) :
    Taken C P inPlay node plan (noteFetchOutcome P { node with
      inflight := node.inflight.erase r, observations } sent.cid false) := by
  rw [noteFetchOutcome_running { node with
    inflight := node.inflight.erase r, observations } hfetch]
  exact h.taken_request hfetch hr (FetchPlan.moves_recordFailed plan sent.cid)
    (by simp) (by simp) rfl (recordFailed_settled plan sent.cid) observations
    node.overrunObjects (.call (.recordFailed sent.cid) (by simp))
    (fun _ ha => ha) fun a ha => .inl (recordFailed_done ha)

/-- Sending does not look at the store. -/
theorem driveFetch_chunks (node : ChunkNode) (chunks : ChunkStore) :
    driveFetch P { node with chunks } =
      { node.driveFetch P with chunks } := by
  have hround : ∀ (issued : List (Cid × PerNetworkIdentityId))
      (node : ChunkNode),
      issued.foldl (sendNext P) { node with chunks } =
        { issued.foldl (sendNext P) node with chunks } := by
    intro issued
    induction issued with
    | nil => exact fun _ => rfl
    | cons r rest ih =>
        intro node
        have hone : sendNext P { node with chunks } r =
            { sendNext P node r with chunks } := by
          cases hr : node.fetchRequests[r.1]? with
          | none => simp only [sendNext, hr]
          | some request => simp only [sendNext, hr, sendChunkRequest]
        rw [List.foldl_cons, List.foldl_cons, hone, ih]
  unfold driveFetch
  cases hfetch : node.fetch with
  | none => simp [hfetch]
  | some plan =>
      exact hround _ { node with fetch := some plan.nextRequests.2 }

theorem driveFetch_remove (cid : Cid) :
    { driveFetch P node with
      chunks := (driveFetch P node).chunks.remove cid } =
      driveFetch P { node with chunks := node.chunks.remove cid } := by
  have hchunks : (driveFetch P { node with chunks := node.chunks }).chunks =
      node.chunks := by
    rw [driveFetch_chunks]
  rw [show (driveFetch P node).chunks = node.chunks from hchunks]
  exact (driveFetch_chunks node _).symm

/-- A chunk that verified is in the plan as received, or as over budget. -/
theorem Sound.taken_verified (h : node.Sound) (hfetch : node.fetch = some plan)
    {r : ℕ} {sent : Outstanding} (hr : node.inflight[r]? = some sent)
    {bytes : List UInt8} (hplay : bytes ∈ inPlay)
    (hverifies : sent.cid.verifies C bytes = true) :
    Taken C P inPlay node plan (chunkVerified P { node with
      inflight := node.inflight.erase r
      chunks := ⟨node.chunks.chunks.insert sent.cid bytes⟩ } sent bytes.length
        (node.chunks.has sent.cid)).2 := by
  obtain ⟨es, hes, hmoves⟩ :=
    FetchPlan.moves_admitChunk plan sent.cid bytes.length
  have hwanted : ∀ e ∈ es, e.isWanted = false := fun e he => by
    rw [hes e he]
    rfl
  have hanswered : ∀ e ∈ es, e.isAnswered = false := fun e he => by
    rw [hes e he]
    rfl
  have hissued : es.filterMap FetchPlan.Event.request = [] :=
    List.filterMap_eq_nil_iff.2 fun e he => by
      rw [hes e he]
      rfl
  have hstored : ∀ a, node.chunks.has a = true →
      ChunkStore.has ⟨node.chunks.chunks.insert sent.cid bytes⟩ a = true :=
    fun a ha => Std.ExtTreeMap.contains_iff_mem.2
      ((BTreeMap.mem_insert_iff _ _ _ _).2
        (.inr (Std.ExtTreeMap.contains_iff_mem.1 ha)))
  unfold chunkVerified admitToFetch
  simp only [hfetch]
  cases hkept : (plan.admitChunk sent.cid bytes.length).1 with
  | true =>
      simp only [Bool.not_true]
      refine h.taken_request hfetch hr
        (hmoves.append (FetchPlan.moves_recordReceived _ sent.cid))
        (by simpa using hwanted) (by simpa using hanswered)
        (by simpa using hissued) (recordReceived_settled _ sent.cid)
        (node.observations.recordVerified sent.source)
        ((plan.admitChunk sent.cid bytes.length).2.overrunObjects.foldl
          (·.insert ·) node.overrunObjects)
        (.kept sent.cid bytes hplay hverifies hkept) hstored fun a ha => ?_
      refine (recordReceived_done ha).imp admitChunk_done fun heq => ?_
      rw [heq]
      exact Std.ExtTreeMap.contains_iff_mem.2
        ((BTreeMap.mem_insert_iff _ _ _ _).2 (.inl rfl))
  | false =>
      simp only [Bool.not_false, if_true]
      have hrefused := fun chunks hstored => h.taken_request (P := P) hfetch hr
        hmoves hwanted hanswered hissued (admitChunk_refused hkept)
        node.observations
        ((plan.admitChunk sent.cid bytes.length).2.overrunObjects.foldl
          (·.insert ·) node.overrunObjects)
        (.refused sent.cid bytes hplay hverifies hkept)
        (show ∀ a, node.chunks.has a = true → ChunkStore.has chunks a = true
          from hstored) fun a ha => .inl (admitChunk_done ha)
      cases hheld : node.chunks.has sent.cid with
      | true => exact hrefused _ hstored
      | false =>
          have hremoved := hrefused
            (ChunkStore.remove ⟨node.chunks.chunks.insert sent.cid bytes⟩
              sent.cid)
            (fun a ha => by
              have hne : sent.cid ≠ a := fun heq => by
                rw [heq, ha] at hheld
                cases hheld
              have hmem := Std.ExtTreeMap.contains_iff_mem.1 (hstored a ha)
              exact Std.ExtTreeMap.contains_iff_mem.2
                (Std.ExtTreeMap.mem_erase.2
                  ⟨fun heq => hne (compare_eq_iff_eq.1 heq), hmem⟩))
          rw [driveFetch_remove]
          exact hremoved

/-! ### To a lookup -/

theorem Tidy.lookedUp (h : node.Tidy) (q : ℕ) :
    Tidy { node with providerQueries := node.providerQueries.erase q } :=
  ⟨fun a ha => h.queries a (Std.ExtTreeMap.mem_of_mem_erase ha), h.requests,
    h.named⟩

theorem Driving.lookedUp (h : Driving node plan ∅ ∅) {q : ℕ} {a : Cid}
    {found : BTreeSet PeerId}
    (hq : node.providerQueries[q]? = some (a, found)) :
    Driving { node with providerQueries := node.providerQueries.erase q } plan
      {a} ∅ where
  books := h.books
  asked := h.asked
  queried := by
    intro hon b hb hawait
    obtain ⟨r, known, hr⟩ := h.queried hon b (Set.notMem_empty b) hawait
    refine ⟨r, known, ?_⟩
    show (node.providerQueries.erase q)[r]? = some (b, known)
    rw [BTreeMap.getElem?_erase_ite, if_neg, hr]
    intro heq
    rw [heq, hr] at hq
    cases hq
    exact hb rfl
  underway := h.underway

/-- A batch of providers changes what a lookup has found and no more. -/
theorem gather_eq (node : ChunkNode) (query : ℕ) (found : List PeerId) :
    node.gather query found = node ∨
      ∃ (a : Cid) (known known' : BTreeSet PeerId),
        node.providerQueries[query]? = some (a, known) ∧
        node.gather query found = { node with
          providerQueries :=
            node.providerQueries.insert query (a, known') } := by
  unfold gather
  split
  · exact .inl rfl
  · next a known hquery => exact .inr ⟨a, known, _, hquery, rfl⟩

theorem gather_work (node : ChunkNode) (query : ℕ) (found : List PeerId) :
    (node.gather query found).fetch = node.fetch ∧
      (node.gather query found).pending = node.pending ∧
      (node.gather query found).load = node.load ∧
      (node.gather query found).chunks = node.chunks ∧
      (node.gather query found).inflight = node.inflight ∧
      ∀ q, q ∈ (node.gather query found).providerQueries ↔
        q ∈ node.providerQueries := by
  rcases node.gather_eq query found with heq | ⟨a, known, known', hq, heq⟩
  · rw [heq]
    exact ⟨rfl, rfl, rfl, rfl, rfl, fun _ => Iff.rfl⟩
  · have hmem : query ∈ node.providerQueries :=
      (BTreeMap.mem_iff_exists _ _).2 ⟨_, hq⟩
    rw [heq]
    refine ⟨rfl, rfl, ?_, rfl, rfl, fun q => ?_⟩
    · have hsize : (node.providerQueries.insert query (a, known')).size =
          node.providerQueries.size := by
        rw [Std.ExtTreeMap.size_insert,
          if_pos (Std.ExtTreeMap.contains_iff_mem.2 hmem)]
      exact congrArg (fun n => toLex (n, _)) hsize
    · rw [BTreeMap.mem_insert_iff]
      exact ⟨fun h => h.elim (fun h => h ▸ hmem) id, .inr⟩

theorem Sound.gather (h : node.Sound) (query : ℕ) (found : List PeerId) :
    (node.gather query found).Sound := by
  rcases node.gather_eq query found with heq | ⟨a, known, known', hq, heq⟩
  · rw [heq]
    exact h
  · have hmem : query ∈ node.providerQueries :=
      (BTreeMap.mem_iff_exists _ _).2 ⟨_, hq⟩
    rw [heq]
    refine ⟨⟨⟨fun q hq' => ?_, h.tidy.requests, h.tidy.named⟩,
      fun plan hplan => ?_, h.stopped⟩, h.opened⟩
    · rcases (BTreeMap.mem_insert_iff _ _ _ _).1 hq' with rfl | hq'
      · exact h.tidy.queries _ hmem
      · exact h.tidy.queries q hq'
    · have hdriving := h.driving plan hplan
      refine ⟨hdriving.books, hdriving.asked, fun hon b hb hawait => ?_,
        hdriving.underway⟩
      obtain ⟨r, known'', hr⟩ := hdriving.queried hon b hb hawait
      simp only [BTreeMap.getElem?_insert_ite]
      by_cases hqr : query = r
      · subst hqr
        rw [hq] at hr
        cases hr
        exact ⟨query, known', if_pos rfl⟩
      · exact ⟨r, known'', by rw [if_neg hqr, hr]⟩

theorem recordProviders_settled (plan : FetchPlan) (a : Cid)
    (providers fallback : List PerNetworkIdentityId) (ledger : CapabilityLedger)
    (observations : ReliabilityObservations) (threshold : Float) :
    (plan.recordProviders a providers fallback ledger observations
      threshold).chunks[a]? ≠ some .awaitingProviders := by
  intro hawait
  unfold FetchPlan.recordProviders at hawait
  split at hawait
  · simp only [BTreeMap.getElem?_insert_ite, if_true] at hawait
    split at hawait <;> cases hawait
  · next hs => exact hs hawait

theorem recordProviders_done {b : Cid}
    {providers fallback : List PerNetworkIdentityId} {ledger : CapabilityLedger}
    {observations : ReliabilityObservations} {threshold : Float}
    (hb : (plan.recordProviders a providers fallback ledger observations
      threshold).chunks[b]? = some .done) : plan.chunks[b]? = some .done := by
  unfold FetchPlan.recordProviders at hb
  split at hb
  · simp only [BTreeMap.getElem?_insert_ite] at hb
    split at hb
    · split at hb <;> cases hb
    · exact hb
  · exact hb

/-- A lookup that is over. -/
theorem Sound.taken_lookup (h : node.Sound) (hfetch : node.fetch = some plan)
    {query : ℕ} (hquery : query ∈ node.providerQueries) (found : List PeerId) :
    Taken C P inPlay node plan
      (node.providersProgressed P query found true).2 := by
  obtain ⟨hfetch', hpending, hload, hchunks, hinflight, hmem⟩ :=
    node.gather_work query found
  have hsound := h.gather query found
  obtain ⟨⟨a, known⟩, hq⟩ := (BTreeMap.mem_iff_exists _ _).1
    ((hmem query).2 hquery)
  rw [hfetch] at hfetch'
  unfold providersProgressed
  simp only [Bool.not_true, Bool.false_eq_true, if_false, hq, hfetch']
  have hmoves := FetchPlan.moves_recordProviders plan a
    (known.toList.filterMap P.fromPeerId)
    ((node.gather query found).tiers.toList.filterMap P.fromPeerId)
    (node.gather query found).ledger
    (node.gather query found).observations.toReliabilityObservations
    unreliableFailureRate
  have hwanted : ∀ e ∈ (if plan.chunks[a]? = some .awaitingProviders then
      [FetchPlan.Event.answered a (FetchPlan.orderedAnswer
        (known.toList.filterMap P.fromPeerId)
        ((node.gather query found).tiers.toList.filterMap P.fromPeerId)
        (node.gather query found).ledger
        (node.gather query found).observations.toReliabilityObservations
        unreliableFailureRate)] else []), e.isWanted = false := by
    intro e he
    split at he
    · rw [List.mem_singleton.1 he]
      rfl
    · cases he
  have hready :=
    (((hsound.driving plan hfetch').lookedUp hq).moves hmoves hwanted
    (by split <;> rfl)).settle
    (fun b hb => by rw [hb]; exact recordProviders_settled plan a _ _ _ _ _)
    (fun b hb => absurd hb (Set.notMem_empty b))
  refine ⟨{ node.gather query found with
      providerQueries := (node.gather query found).providerQueries.erase query
      fetch := some _ }, plan.recordProviders a
        (known.toList.filterMap P.fromPeerId)
        ((node.gather query found).tiers.toList.filterMap P.fromPeerId)
        (node.gather query found).ledger
        (node.gather query found).observations.toReliabilityObservations
        unreliableFailureRate, ?_, rfl⟩
  refine ⟨rfl, ⟨(hsound.tidy.lookedUp query).queries, hsound.tidy.requests,
      hsound.tidy.named⟩,
    ⟨hready.books, hready.asked, hready.queried, hready.underway⟩, hpending,
    sameChunks_of_moves hmoves hwanted, ?_,
    fun r o hr => by rw [← hinflight]; exact hr,
    .call (.recordProviders a _ _ _ _ _) (by simp), ?_,
    fun b hb => .inl (recordProviders_done hb)⟩
  · rw [← hload]
    exact Prod.Lex.toLex_lt_toLex.2 (.inl (BTreeMap.size_erase_lt
      ((BTreeMap.mem_iff_exists _ _).2 ⟨_, hq⟩)))
  · intro b hb
    show (node.gather query found).chunks.has b = true
    rw [hchunks]
    exact hb

/-! ### To anything -/

/-- The bytes an event brings. -/
def Event.brings : Event → Set (List UInt8)
  | .response _ (.chunk bytes) => {bytes}
  | _ => ∅

theorem insert_ok {store chunks : ChunkStore} {cid : Cid} {bytes : List UInt8}
    (h : store.insert C cid bytes = .ok chunks) :
    cid.verifies C bytes = true ∧ chunks = ⟨store.chunks.insert cid bytes⟩ := by
  unfold ChunkStore.insert at h
  split at h
  · cases h
  · next hverifies =>
      cases h
      exact ⟨by simpa using hverifies, rfl⟩

theorem handle_taken (h : node.Sound) (hfetch : node.fetch = some plan)
    {event : Event} (ha : node.Answers event) (hplay : event.brings ⊆ inPlay) :
    Taken C P inPlay node plan (node.handle C P event).2 := by
  cases event with
  | providersProgressed query found last =>
      obtain ⟨rfl, hquery⟩ := ha
      exact h.taken_lookup hfetch hquery found
  | response request response =>
      obtain ⟨sent, hr⟩ := (BTreeMap.mem_iff_exists _ _).1 ha
      show Taken C P inPlay node plan
        (node.chunkResponse C P request response).2
      unfold chunkResponse
      simp only [hr]
      cases response with
      | chunk bytes =>
          cases hinsert : node.chunks.insert C sent.cid bytes with
          | ok chunks =>
              obtain ⟨hverifies, rfl⟩ := insert_ok hinsert
              simp only [hinsert]
              exact h.taken_verified hfetch hr (hplay rfl) hverifies
          | error _ =>
              simp only [hinsert]
              exact h.taken_failed hfetch hr _
      | notHeld => exact h.taken_failed hfetch hr node.observations
      | refused reason => exact h.taken_failed hfetch hr node.observations
  | failed peer request error =>
      obtain ⟨sent, hr⟩ := (BTreeMap.mem_iff_exists _ _).1 ha
      show Taken C P inPlay node plan (node.chunkFailed P peer request error).2
      unfold chunkFailed
      simp only [hr]
      exact h.taken_failed hfetch hr node.observations

/-- What answers nothing adds to what a lookup has found at most. -/
theorem handle_stale {event : Event} (ha : ¬ node.Answers event) :
    (node.handle C P event).2 = node ∨
      ∃ query found, (node.handle C P event).2 = node.gather query found := by
  cases event with
  | providersProgressed query found last =>
      refine .inr ⟨query, found, ?_⟩
      show (node.providersProgressed P query found last).2 = _
      unfold providersProgressed
      cases last with
      | false => rfl
      | true =>
          have hnone :
              (node.gather query found).providerQueries[query]? = none := by
            rw [BTreeMap.getElem?_eq_none_iff,
              (gather_work _ query found).2.2.2.2.2]
            exact fun hmem => ha ⟨rfl, hmem⟩
          simp [hnone]
  | response request response =>
      have hnone := (BTreeMap.getElem?_eq_none_iff _ _).2 ha
      refine .inl ?_
      show (node.chunkResponse C P request response).2 = node
      unfold chunkResponse
      rw [hnone]
  | failed peer request error =>
      have hnone := (BTreeMap.getElem?_eq_none_iff _ _).2 ha
      refine .inl ?_
      show (node.chunkFailed P peer request error).2 = node
      unfold chunkFailed
      rw [hnone]

/-- No fetch is running, and next to `base` nothing is asked or reported. -/
structure Idle (node base : ChunkNode) : Prop where
  tidy : node.Tidy
  fetch : node.fetch = none
  pending : node.pending = base.pending
  inflight : ∀ (r : ℕ) (o : Outstanding), node.inflight[r]? = some o →
    base.inflight[r]? = some o

variable {base : ChunkNode}

theorem Idle.note (h : node.Idle base) (a : Cid) (received : Bool) :
    (node.noteFetchOutcome P a received).Idle base := by
  unfold noteFetchOutcome
  rw [h.fetch]
  exact h

theorem Idle.answered (h : node.Idle base) (r : ℕ) (chunks : ChunkStore)
    (observations : AuditedObservations) : Idle { node with
      inflight := node.inflight.erase r, chunks, observations } base :=
  ⟨⟨h.tidy.queries, (h.tidy.answered r).requests, h.tidy.named⟩, h.fetch,
    h.pending, fun _ _ hq => h.inflight _ _ (of_erase hq)⟩

theorem Idle.gather (h : node.Idle base) (query : ℕ) (found : List PeerId) :
    (node.gather query found).Idle base :=
  ⟨((h.tidy.sound h.fetch).gather query found).tidy,
    (node.gather_work query found).1.trans h.fetch,
    (node.gather_work query found).2.1.trans h.pending,
    by rw [(node.gather_work query found).2.2.2.2.1]; exact h.inflight⟩

theorem Idle.verified (h : node.Idle base) (sent : Outstanding) (len : ℕ)
    (heldBefore : Bool) :
    (chunkVerified P node sent len heldBefore).2.Idle base := by
  have hadmitted : node.admitToFetch P sent.cid len = (true, node) := by
    unfold admitToFetch
    rw [h.fetch]
  unfold chunkVerified
  simp only [hadmitted]
  have hobserved : Idle { node with
      observations := node.observations.recordVerified sent.source } base :=
    ⟨⟨h.tidy.queries, h.tidy.requests, h.tidy.named⟩, h.fetch, h.pending,
      h.inflight⟩
  exact hobserved.note sent.cid true

/-- Without a fetch an answer starts none. -/
theorem Idle.handle (h : node.Idle base) (event : Event) :
    (node.handle C P event).2.Idle base := by
  by_cases ha : node.Answers event
  · cases event with
    | providersProgressed query found last =>
        obtain ⟨rfl, hquery⟩ := ha
        obtain ⟨⟨a, known⟩, hq⟩ := (BTreeMap.mem_iff_exists _ _).1
          (((node.gather_work query found).2.2.2.2.2 query).2 hquery)
        have hgathered := h.gather query found
        show (node.providersProgressed P query found true).2.Idle base
        unfold providersProgressed
        simp only [Bool.not_true, Bool.false_eq_true, if_false, hq,
          hgathered.fetch]
        exact ⟨⟨(hgathered.tidy.lookedUp query).queries,
          hgathered.tidy.requests, hgathered.tidy.named⟩, rfl,
          hgathered.pending, hgathered.inflight⟩
    | response request response =>
        obtain ⟨sent, hr⟩ := (BTreeMap.mem_iff_exists _ _).1 ha
        show (node.chunkResponse C P request response).2.Idle base
        unfold chunkResponse
        simp only [hr]
        cases response with
        | chunk bytes =>
            cases hinsert : node.chunks.insert C sent.cid bytes with
            | ok chunks =>
                simp only [hinsert]
                exact (h.answered request chunks node.observations).verified
                  _ _ _
            | error _ =>
                simp only [hinsert]
                exact (h.answered request node.chunks _).note _ _
        | notHeld => exact (h.answered request node.chunks _).note _ _
        | refused reason => exact (h.answered request node.chunks _).note _ _
    | failed peer request error =>
        obtain ⟨sent, hr⟩ := (BTreeMap.mem_iff_exists _ _).1 ha
        show (node.chunkFailed P peer request error).2.Idle base
        unfold chunkFailed
        simp only [hr]
        exact (h.answered request node.chunks _).note _ _
  · rcases handle_stale (C := C) (P := P) ha with heq | ⟨query, found, heq⟩
    · rw [heq]
      exact h
    · rw [heq]
      exact h.gather query found

/-- Whether an input asks for something new. -/
def Input.asks : Input C validKey → Bool
  | .fetchChunks .. => true
  | .fetchObject .. => true
  | .requestChunk .. => true
  | .findProviders .. => true
  | _ => false

/-- A node without a fetch starts none by itself. -/
theorem idle_step (h : node.Tidy) (hfetch : node.fetch = none)
    (input : Input C validKey) (hasks : input.asks = false) :
    (node.step P input).2.Tidy ∧ (node.step P input).2.fetch = none := by
  cases input with
  | fetchChunks cids requester concurrency => cases hasks
  | fetchObject object manifest requester concurrency => cases hasks
  | requestChunk source cid requester => cases hasks
  | findProviders cid => cases hasks
  | storeChunk bytes => exact ⟨h.of_work rfl, hfetch⟩
  | forgetChunk cid => exact ⟨h.of_work rfl, hfetch⟩
  | gossiped ledger tiers => exact ⟨h.of_work rfl, hfetch⟩
  | nextEvent event =>
      show (node.nextEvent C P event).2.Tidy ∧
        (node.nextEvent C P event).2.fetch = none
      unfold ChunkNode.nextEvent
      split
      · exact ⟨h.of_work rfl, hfetch⟩
      · cases event with
        | none => exact ⟨h, hfetch⟩
        | some event =>
            have hidle := Idle.handle (C := C) (P := P)
              ⟨h, hfetch, rfl, fun _ _ hr => hr⟩ event
            exact ⟨hidle.tidy, hidle.fetch⟩

/-! ## What an answer comes to -/

theorem Taken.sound (h : Taken C P inPlay node plan next) : next.Sound := by
  obtain ⟨mid, plan', hmid, rfl⟩ := h
  exact (hmid.driving.driven hmid.fetch hmid.tidy).report

/-! ## Steps and runs -/

theorem Sound.nextEvent (h : node.Sound) (event : Option Event) :
    (node.nextEvent C P event).2.Sound := by
  unfold ChunkNode.nextEvent
  split
  · exact h.of_work rfl
  · cases event with
    | none => exact h
    | some event =>
        show (node.handle C P event).2.Sound
        cases hfetch : node.fetch with
        | none =>
            have hidle := Idle.handle (C := C) (P := P) ⟨h.tidy, hfetch, rfl,
              fun _ _ hr => hr⟩ event
            exact hidle.tidy.sound hidle.fetch
        | some plan =>
            by_cases ha : node.Answers event
            · exact (handle_taken h hfetch ha subset_rfl).sound
            · rcases handle_stale (C := C) (P := P) ha with
                heq | ⟨q, found, heq⟩
              · rw [heq]
                exact h
              · rw [heq]
                exact h.gather q found

theorem Sound.fetchObject (h : node.Sound) (object : Cid) (manifest : Manifest)
    (requester : PerNetworkIdentity C validKey) (concurrency : ℕ) :
    (node.fetchObject P object manifest requester concurrency).2.Sound := by
  unfold ChunkNode.fetchObject
  split
  · exact h
  · simp only
    split
    · exact h.of_work rfl
    · show ChunkNode.Sound
        (if _ then node.startFetch P _ _ requester concurrency else node)
      split
      · exact h.startFetch requester _ _ concurrency
      · exact h

theorem Sound.step (h : node.Sound) (input : Input C validKey) :
    (node.step P input).2.Sound := by
  cases input with
  | fetchChunks cids requester concurrency =>
      exact h.startFetch requester _ none concurrency
  | fetchObject object manifest requester concurrency =>
      exact h.fetchObject object manifest requester concurrency
  | requestChunk source cid requester =>
      have hsends :=
        sends_chunkRequest (P := P) h.tidy source (.create requester cid)
      refine ⟨⟨hsends.tidy h.tidy, fun plan hplan => ?_, h.stopped⟩, h.opened⟩
      exact hsends.driving (h.driving plan hplan)
  | findProviders cid =>
      have hlooks := looks_findProviders h.tidy cid
      have hfetch : (node.findProviders cid).fetch = node.fetch := by
        rw [hlooks.frame]
      show (node.findProviders cid).Sound
      refine ⟨⟨hlooks.tidy h.tidy, ?_, ?_⟩, ?_⟩
      · rw [hfetch]
        intro plan hplan
        have hdriving := hlooks.driving (h.driving plan hplan)
        rwa [Set.empty_sdiff] at hdriving
      · rw [hfetch]
        exact h.stopped
      · rw [hfetch]
        exact h.opened
  | storeChunk bytes => exact h.of_work rfl
  | forgetChunk cid => exact h.of_work rfl
  | gossiped ledger tiers => exact h.of_work rfl
  | nextEvent event => exact h.nextEvent event

theorem sound_new (network : NetworkId) (discovery : Bool) :
    (ChunkNode.new network discovery).Sound :=
  Tidy.sound ⟨fun q hq => absurd hq Std.ExtTreeMap.not_mem_empty,
    fun r hr => absurd hr Std.ExtTreeMap.not_mem_empty,
    fun a q hq => by simp [ChunkNode.new] at hq⟩ rfl

theorem sound_run (network : NetworkId) (discovery : Bool)
    (inputs : List (Input C validKey)) :
    (Machine.state (step P) (.new network discovery) inputs).Sound :=
  Machine.invariant (sound_new network discovery) (fun _ i h => h.step i) inputs

/-! ## Discovery -/

@[simp] theorem driveFetch_discovery :
    (node.driveFetch P).discovery = node.discovery := by
  have hround : ∀ (issued : List (Cid × PerNetworkIdentityId))
      (node : ChunkNode),
      (issued.foldl (sendNext P) node).discovery = node.discovery := by
    intro issued
    induction issued with
    | nil => exact fun _ => rfl
    | cons r rest ih =>
        intro node
        rw [List.foldl_cons, ih]
        unfold sendNext
        split <;> rfl
  unfold driveFetch
  split
  · rfl
  · exact hround _ _

@[simp] theorem reportCompletion_discovery :
    node.reportCompletion.discovery = node.discovery := by
  cases hfetch : node.fetch with
  | none => rw [reportCompletion_idle hfetch]
  | some plan =>
      rw [reportCompletion_running hfetch]
      split <;> rfl

@[simp] theorem noteFetchOutcome_discovery (a : Cid) (received : Bool) :
    (node.noteFetchOutcome P a received).discovery = node.discovery := by
  unfold noteFetchOutcome
  split
  · rfl
  · simp

@[simp] theorem foldl_findProviders_discovery (cids : List Cid) :
    (cids.foldl findProviders node).discovery = node.discovery := by
  induction cids generalizing node with
  | nil => rfl
  | cons cid cids ih =>
      rw [List.foldl_cons, ih]
      unfold findProviders
      split <;> rfl

@[simp] theorem startFetch_discovery (wanted : List Cid)
    (budget : Option (Cid × ℕ)) (requester : PerNetworkIdentity C validKey)
    (concurrency : ℕ) :
    (node.startFetch P wanted budget requester concurrency).discovery =
      node.discovery := by
  simp [startFetch_eq, withPlan]

@[simp] theorem gather_discovery (query : ℕ) (found : List PeerId) :
    (node.gather query found).discovery = node.discovery := by
  unfold ChunkNode.gather
  split <;> rfl

theorem chunkVerified_discovery (sent : Outstanding) (len : ℕ)
    (heldBefore : Bool) :
    (chunkVerified P node sent len heldBefore).2.discovery =
      node.discovery := by
  have hadmit : (node.admitToFetch P sent.cid len).2.discovery =
    node.discovery := by
    unfold admitToFetch
    split
    · rfl
    · simp only
      split <;> simp
  unfold chunkVerified
  simp only
  split
  · rw [reportCompletion_discovery]
    split <;> exact hadmit
  · rw [noteFetchOutcome_discovery]
    exact hadmit

theorem handle_discovery (event : Event) :
    (node.handle C P event).2.discovery = node.discovery := by
  cases event with
  | providersProgressed query found last =>
      show (node.providersProgressed P query found last).2.discovery = _
      unfold providersProgressed
      simp only
      split
      · simp
      · split
        · simp
        · simp only
          split <;> simp
  | response request response =>
      show (node.chunkResponse C P request response).2.discovery = _
      unfold chunkResponse
      split
      · rfl
      · simp only
        split
        · split
          · rw [chunkVerified_discovery]
          · simp
        · simp
        · simp
  | failed peer request error =>
      show (node.chunkFailed P peer request error).2.discovery = _
      unfold chunkFailed
      split
      · rfl
      · simp

/-- A node has discovery from the start or never. -/
theorem step_discovery (input : Input C validKey) :
    (node.step P input).2.discovery = node.discovery := by
  cases input with
  | fetchChunks cids requester concurrency =>
      exact startFetch_discovery _ none requester concurrency
  | fetchObject object manifest requester concurrency =>
      show (node.fetchObject P object manifest requester
        concurrency).2.discovery = _
      unfold ChunkNode.fetchObject
      split
      · rfl
      · simp only
        split
        · rfl
        · simp only
          split <;> simp
  | requestChunk source cid requester => rfl
  | findProviders cid => exact foldl_findProviders_discovery [cid]
  | storeChunk bytes => rfl
  | forgetChunk cid => rfl
  | gossiped ledger tiers => rfl
  | nextEvent event =>
      show (node.nextEvent C P event).2.discovery = _
      unfold ChunkNode.nextEvent
      split
      · rfl
      · split
        · rfl
        · exact handle_discovery _

theorem discovery_run (network : NetworkId) (discovery : Bool)
    (inputs : List (Input C validKey)) :
    (Machine.state (step P) (.new network discovery) inputs).discovery =
      discovery :=
  Machine.invariant (P := fun node : ChunkNode => node.discovery = discovery)
    rfl (fun _ i h => (step_discovery i).trans h) inputs

end ChunkNode

end Intranet
