import Intranet.Proofs.FetchEnds

/-!
# What a node says of chunks is true

A chunk comes in by one door. `Outcome` lists what an event can do to the
store and to what the node has observed of its peers, together with what is
reported of it, and everything here is read off that list. Bytes that do not
match the name they were asked for under never get into the store; a peer is
charged for them, once, and for nothing else. What a report calls received is
held, since a plan calls a chunk done in the step that stores it.
-/

namespace Intranet

/-- Whether a report neither says that something came nor charges a peer. -/
def ChunkReport.isPlain : ChunkReport → Bool
  | .chunkUnavailable _ _ _ counted => !counted
  | .providersFound .. => true
  | _ => false

namespace ChunkNode

variable {C : Crypto} {validKey : Bytes 32 → Bool} {P : PeerIds}
  {node next : ChunkNode} {plan : FetchPlan} {inPlay brought : Set (List UInt8)}

/-! ## What sending and reporting leave alone -/

theorem driveFetch_kept (node : ChunkNode) :
    (node.driveFetch P).chunks = node.chunks ∧
      (node.driveFetch P).observations = node.observations ∧
      (node.driveFetch P).pending = node.pending := by
  have hround : ∀ (issued : List (Cid × PerNetworkIdentityId))
      (node : ChunkNode),
      (issued.foldl (sendNext P) node).chunks = node.chunks ∧
        (issued.foldl (sendNext P) node).observations = node.observations ∧
        (issued.foldl (sendNext P) node).pending = node.pending := by
    intro issued
    induction issued with
    | nil => exact fun _ => ⟨rfl, rfl, rfl⟩
    | cons r rest ih =>
        intro node
        have hone : (sendNext P node r).chunks = node.chunks ∧
            (sendNext P node r).observations = node.observations ∧
            (sendNext P node r).pending = node.pending := by
          unfold sendNext
          split <;> exact ⟨rfl, rfl, rfl⟩
        obtain ⟨hchunks, hobserved, hpending⟩ := ih (sendNext P node r)
        exact ⟨hchunks.trans hone.1, hobserved.trans hone.2.1,
          hpending.trans hone.2.2⟩
  unfold driveFetch
  split
  · exact ⟨rfl, rfl, rfl⟩
  · exact hround _ _

theorem reportCompletion_kept (node : ChunkNode) :
    node.reportCompletion.chunks = node.chunks ∧
      node.reportCompletion.observations = node.observations := by
  cases hfetch : node.fetch with
  | none =>
      rw [reportCompletion_idle hfetch]
      exact ⟨rfl, rfl⟩
  | some plan =>
      rw [reportCompletion_running hfetch]
      split <;> exact ⟨rfl, rfl⟩

theorem noteFetchOutcome_kept (node : ChunkNode) (a : Cid) (received : Bool) :
    (node.noteFetchOutcome P a received).chunks = node.chunks ∧
      (node.noteFetchOutcome P a received).observations =
        node.observations := by
  cases hfetch : node.fetch with
  | none =>
      unfold noteFetchOutcome
      rw [hfetch]
      exact ⟨rfl, rfl⟩
  | some plan =>
      rw [noteFetchOutcome_running node hfetch]
      obtain ⟨hchunks, hobserved⟩ := reportCompletion_kept (driveFetch P
        { node with fetch := some (if received then plan.recordReceived a
            else plan.recordFailed a) })
      obtain ⟨hchunks', hobserved', -⟩ := driveFetch_kept (P := P)
        { node with fetch := some (if received then plan.recordReceived a
            else plan.recordFailed a) }
      exact ⟨hchunks.trans hchunks', hobserved.trans hobserved'⟩

theorem admitToFetch_kept (node : ChunkNode) (a : Cid) (len : ℕ) :
    (node.admitToFetch P a len).2.chunks = node.chunks ∧
      (node.admitToFetch P a len).2.observations = node.observations := by
  unfold admitToFetch
  split
  · exact ⟨rfl, rfl⟩
  · simp only
    split
    · exact ⟨(driveFetch_kept _).1, (driveFetch_kept _).2.1⟩
    · exact ⟨rfl, rfl⟩

/-! ## What an event can do -/

/-- What an event that brings certain bytes does to the store and to the
observations, and what is reported of it. -/
inductive Outcome (C : Crypto) (brought : Set (List UInt8))
    (node : ChunkNode) :
    Option ChunkReport → ChunkStore → AuditedObservations → Prop
  | kept {r : ℕ} {sent : Outstanding} {bytes : List UInt8}
      (hbytes : bytes ∈ brought) (hr : node.inflight[r]? = some sent)
      (hverifies : sent.cid.verifies C bytes = true) :
      Outcome C brought node
        (some (.chunkReceived sent.peer sent.cid bytes.length))
        ⟨node.chunks.chunks.insert sent.cid bytes⟩
        (node.observations.recordVerified sent.source)
  | tooMuch {r : ℕ} {sent : Outstanding} {bytes : List UInt8}
      (hbytes : bytes ∈ brought) (hr : node.inflight[r]? = some sent)
      (hverifies : sent.cid.verifies C bytes = true) (reason : String)
      {chunks : ChunkStore}
      (hchunks : chunks =
        (if node.chunks.has sent.cid then
          ⟨node.chunks.chunks.insert sent.cid bytes⟩
        else ⟨(node.chunks.chunks.insert sent.cid bytes).erase sent.cid⟩)) :
      Outcome C brought node
        (some (.chunkUnavailable sent.peer sent.cid reason false))
        chunks node.observations
  | mismatch {r : ℕ} {sent : Outstanding} {bytes : List UInt8}
      (hr : node.inflight[r]? = some sent)
      (hverifies : sent.cid.verifies C bytes = false) (reason : String) :
      Outcome C brought node
        (some (.chunkUnavailable sent.peer sent.cid reason true))
        node.chunks (node.observations.recordFailed sent.source)
  | nothing (report : Option ChunkReport)
      (hreport : ∀ r ∈ report, ChunkReport.isPlain r = true) :
      Outcome C brought node report node.chunks node.observations

theorem Outcome.of_eq {report : Option ChunkReport}
    {chunks chunks' : ChunkStore}
    {observations observations' : AuditedObservations}
    (h : Outcome C brought node report chunks observations)
    (hchunks : chunks' = chunks)
    (hobserved : observations' = observations) :
    Outcome C brought node report chunks' observations' := by
  rw [hchunks, hobserved]
  exact h

/-- A chunk that verified is kept, or taken back out. -/
theorem verified_outcome {r : ℕ} {sent : Outstanding} {bytes : List UInt8}
    (hbytes : bytes ∈ brought) (hr : node.inflight[r]? = some sent)
    (hverifies : sent.cid.verifies C bytes = true) :
    let mid : ChunkNode := { node with
      inflight := node.inflight.erase r
      chunks := ⟨node.chunks.chunks.insert sent.cid bytes⟩ }
    let done := chunkVerified P mid sent bytes.length (node.chunks.has sent.cid)
    Outcome C brought node done.1 done.2.chunks done.2.observations := by
  intro mid done
  obtain ⟨hchunks, hobserved⟩ :=
    admitToFetch_kept (P := P) mid sent.cid bytes.length
  cases hkept : (mid.admitToFetch P sent.cid bytes.length).1 with
  | true =>
      have hdone : done =
        (some (.chunkReceived sent.peer sent.cid bytes.length),
          noteFetchOutcome P { (mid.admitToFetch P sent.cid bytes.length).2 with
            observations := (mid.admitToFetch P sent.cid
              bytes.length).2.observations.recordVerified sent.source }
            sent.cid true) := by
        show chunkVerified P mid sent bytes.length _ = _
        unfold chunkVerified
        simp [hkept]
      rw [hdone]
      obtain ⟨hchunks', hobserved'⟩ := noteFetchOutcome_kept (P := P)
        { (mid.admitToFetch P sent.cid bytes.length).2 with
          observations := (mid.admitToFetch P sent.cid
            bytes.length).2.observations.recordVerified sent.source }
        sent.cid true
      refine (Outcome.kept hbytes hr hverifies).of_eq (hchunks'.trans hchunks)
        (hobserved'.trans ?_)
      exact congrArg (fun o => AuditedObservations.recordVerified o sent.source)
        hobserved
  | false =>
      have hdone : done = (some (.chunkUnavailable sent.peer sent.cid
          "past its object's declared size" false),
          (if !node.chunks.has sent.cid then
            { (mid.admitToFetch P sent.cid bytes.length).2 with
              chunks := (mid.admitToFetch P sent.cid
                bytes.length).2.chunks.remove sent.cid }
          else (mid.admitToFetch P sent.cid
            bytes.length).2).reportCompletion) := by
        show chunkVerified P mid sent bytes.length _ = _
        unfold chunkVerified
        simp [hkept]
      rw [hdone]
      refine (Outcome.tooMuch hbytes hr hverifies _ rfl).of_eq ?_ ?_
      · rw [(reportCompletion_kept _).1]
        cases node.chunks.has sent.cid with
        | true => exact hchunks
        | false =>
            exact congrArg (fun store => ChunkStore.remove store sent.cid)
              hchunks
      · rw [(reportCompletion_kept _).2]
        cases node.chunks.has sent.cid <;> exact hobserved

theorem handle_outcome (node : ChunkNode) (event : Event) :
    Outcome C event.brings node (node.handle C P event).1
      (node.handle C P event).2.chunks
      (node.handle C P event).2.observations := by
  cases event with
  | providersProgressed query found last =>
      have hgather : (node.gather query found).chunks = node.chunks ∧
          (node.gather query found).observations = node.observations := by
        unfold ChunkNode.gather
        split <;> exact ⟨rfl, rfl⟩
      show Outcome C _ node (node.providersProgressed P query found last).1
        (node.providersProgressed P query found last).2.chunks
        (node.providersProgressed P query found last).2.observations
      unfold providersProgressed
      simp only
      split
      · exact (Outcome.nothing none (by simp)).of_eq hgather.1 hgather.2
      · split
        · exact (Outcome.nothing none (by simp)).of_eq hgather.1 hgather.2
        · next a known _ =>
            refine (Outcome.nothing _ ?_).of_eq ?_ ?_
            · intro r hr
              cases hr
              rfl
            · simp only
              split
              · exact hgather.1
              · rw [(reportCompletion_kept _).1, (driveFetch_kept _).1]
                exact hgather.1
            · simp only
              split
              · exact hgather.2
              · rw [(reportCompletion_kept _).2, (driveFetch_kept _).2.1]
                exact hgather.2
  | response request response =>
      show Outcome C _ node (node.chunkResponse C P request response).1
        (node.chunkResponse C P request response).2.chunks
        (node.chunkResponse C P request response).2.observations
      unfold chunkResponse
      cases hr : node.inflight[request]? with
      | none => exact .nothing none (by simp)
      | some sent =>
          simp only
          cases response with
          | chunk bytes =>
              cases hinsert : node.chunks.insert C sent.cid bytes with
              | ok chunks =>
                  obtain ⟨hverifies, rfl⟩ := insert_ok hinsert
                  simp only [hinsert]
                  exact verified_outcome rfl hr hverifies
              | error _ =>
                  have hverifies : sent.cid.verifies C bytes = false := by
                    unfold ChunkStore.insert at hinsert
                    split at hinsert
                    · next h => simpa using h
                    · cases hinsert
                  simp only [hinsert]
                  obtain ⟨hchunks, hobserved⟩ := noteFetchOutcome_kept (P := P)
                    { node with
                      inflight := node.inflight.erase request
                      observations :=
                        node.observations.recordFailed sent.source }
                    sent.cid false
                  exact (Outcome.mismatch hr hverifies _).of_eq hchunks
                    hobserved
          | notHeld =>
              obtain ⟨hchunks, hobserved⟩ := noteFetchOutcome_kept (P := P)
                { node with inflight := node.inflight.erase request }
                sent.cid false
              exact (Outcome.nothing _ (by simp [ChunkReport.isPlain])).of_eq
                hchunks hobserved
          | refused reason =>
              obtain ⟨hchunks, hobserved⟩ := noteFetchOutcome_kept (P := P)
                { node with inflight := node.inflight.erase request }
                sent.cid false
              exact (Outcome.nothing _ (by simp [ChunkReport.isPlain])).of_eq
                hchunks hobserved
  | failed peer request error =>
      show Outcome C _ node (node.chunkFailed P peer request error).1
        (node.chunkFailed P peer request error).2.chunks
        (node.chunkFailed P peer request error).2.observations
      unfold chunkFailed
      cases hr : node.inflight[request]? with
      | none => exact .nothing none (by simp)
      | some sent =>
          obtain ⟨hchunks, hobserved⟩ := noteFetchOutcome_kept (P := P)
            { node with inflight := node.inflight.erase request } sent.cid false
          exact (Outcome.nothing _ (by simp [ChunkReport.isPlain])).of_eq
            hchunks hobserved

/-! ## The store -/

/-- Every chunk of a store is in play and what it is named after. -/
def Intact (C : Crypto) (inPlay : Set (List UInt8)) (store : ChunkStore) :
    Prop :=
  ∀ (a : Cid) (bytes : List UInt8), store.chunks[a]? = some bytes →
    bytes ∈ inPlay ∧ a.verifies C bytes = true

theorem Intact.insert {store : ChunkStore} (h : Intact C inPlay store) {a : Cid}
    {bytes : List UInt8} (hbytes : bytes ∈ inPlay)
    (hverifies : a.verifies C bytes = true) :
    Intact C inPlay ⟨store.chunks.insert a bytes⟩ := by
  intro b found hb
  rw [BTreeMap.getElem?_insert_ite] at hb
  split at hb
  · next heq =>
      cases hb
      exact ⟨hbytes, heq ▸ hverifies⟩
  · exact h b found hb

theorem Intact.erase {store : ChunkStore} (h : Intact C inPlay store)
    (a : Cid) : Intact C inPlay ⟨store.chunks.erase a⟩ := by
  intro b found hb
  rw [BTreeMap.getElem?_erase_ite] at hb
  split at hb
  · cases hb
  · exact h b found hb

theorem Outcome.intact {report : Option ChunkReport} {chunks : ChunkStore}
    {observations : AuditedObservations}
    (h : Outcome C brought node report chunks observations)
    (hplay : brought ⊆ inPlay) (hnode : Intact C inPlay node.chunks) :
    Intact C inPlay chunks := by
  cases h with
  | kept hbytes hr hverifies => exact hnode.insert (hplay hbytes) hverifies
  | tooMuch hbytes hr hverifies reason hchunks =>
      rw [hchunks]
      split
      · exact hnode.insert (hplay hbytes) hverifies
      · exact (hnode.insert (hplay hbytes) hverifies).erase _
  | mismatch hr hverifies reason => exact hnode
  | nothing report hreport => exact hnode

/-- A chunk that was held is held still. -/
theorem Outcome.holds {report : Option ChunkReport} {chunks : ChunkStore}
    {observations : AuditedObservations}
    (h : Outcome C brought node report chunks observations) {a : Cid}
    (ha : node.chunks.has a = true) : chunks.has a = true := by
  have hinsert : ∀ (b : Cid) (bytes : List UInt8),
      a ∈ node.chunks.chunks.insert b bytes := fun b bytes =>
    (BTreeMap.mem_insert_iff _ _ _ _).2
      (.inr (Std.ExtTreeMap.contains_iff_mem.1 ha))
  cases h with
  | kept hbytes hr hverifies =>
      exact Std.ExtTreeMap.contains_iff_mem.2 (hinsert _ _)
  | @tooMuch r sent bytes hbytes hr hverifies reason _ hchunks =>
      rw [hchunks]
      split
      · exact Std.ExtTreeMap.contains_iff_mem.2 (hinsert _ _)
      · next hnew =>
          refine Std.ExtTreeMap.contains_iff_mem.2
            (Std.ExtTreeMap.mem_erase.2 ⟨fun heq => hnew ?_, hinsert _ _⟩)
          rw [compare_eq_iff_eq.1 heq]
          exact ha
  | mismatch hr hverifies reason => exact ha
  | nothing report hreport => exact ha

theorem startFetch_kept (node : ChunkNode) (wanted : List Cid)
    (budget : Option (Cid × ℕ)) (requester : PerNetworkIdentity C validKey)
    (concurrency : ℕ) :
    (node.startFetch P wanted budget requester concurrency).chunks =
      node.chunks ∧
      (node.startFetch P wanted budget requester concurrency).observations =
        node.observations ∧
      (node.startFetch P wanted budget requester concurrency).pending =
        node.pending := by
  have hlooks : ∀ (cids : List Cid) (mid : ChunkNode),
      (cids.foldl findProviders mid).chunks = mid.chunks ∧
        (cids.foldl findProviders mid).observations = mid.observations ∧
        (cids.foldl findProviders mid).pending = mid.pending := by
    intro cids
    induction cids with
    | nil => exact fun _ => ⟨rfl, rfl, rfl⟩
    | cons cid cids ih =>
        intro mid
        have hone : (mid.findProviders cid).chunks = mid.chunks ∧
            (mid.findProviders cid).observations = mid.observations ∧
            (mid.findProviders cid).pending = mid.pending := by
          unfold findProviders
          split <;> exact ⟨rfl, rfl, rfl⟩
        obtain ⟨hchunks, hobserved, hpending⟩ := ih (mid.findProviders cid)
        exact ⟨hchunks.trans hone.1, hobserved.trans hone.2.1,
          hpending.trans hone.2.2⟩
  rw [startFetch_eq]
  obtain ⟨hchunks, hobserved, hpending⟩ := driveFetch_kept (P := P)
    ((node.startedPlan wanted budget concurrency).providersNeeded.foldl
      findProviders (node.withPlan wanted budget requester concurrency))
  obtain ⟨hchunks', hobserved', hpending'⟩ := hlooks
    (node.startedPlan wanted budget concurrency).providersNeeded
    (node.withPlan wanted budget requester concurrency)
  exact ⟨hchunks.trans hchunks', hobserved.trans hobserved',
    hpending.trans hpending'⟩

/-- What an object asks for does not touch the store either. -/
theorem fetchObject_kept (object : Cid) (manifest : Manifest)
    (requester : PerNetworkIdentity C validKey) (concurrency : ℕ) :
    (node.fetchObject P object manifest requester concurrency).2.chunks =
        node.chunks ∧
      (node.fetchObject P object manifest requester
        concurrency).2.observations =
        node.observations ∧
      (node.fetchObject P object manifest requester concurrency).2.pending =
        node.pending := by
  unfold ChunkNode.fetchObject
  split
  · exact ⟨rfl, rfl, rfl⟩
  · simp only
    split
    · exact ⟨rfl, rfl, rfl⟩
    · show (ChunkNode.chunks
          (if _ then node.startFetch P _ _ requester concurrency else node) =
        _ ∧ _ ∧ _)
      split
      · exact startFetch_kept _ _ _ requester concurrency
      · exact ⟨rfl, rfl, rfl⟩

theorem intact_step (h : Intact C inPlay node.chunks)
    (input : Input C validKey) (hplay : input.brings ⊆ inPlay) :
    Intact C inPlay (node.step P input).2.chunks := by
  cases input with
  | fetchChunks cids requester concurrency =>
      show Intact C inPlay
        (node.startFetch P _ none requester concurrency).chunks
      rw [(startFetch_kept _ _ none requester concurrency).1]
      exact h
  | fetchObject object manifest requester concurrency =>
      show Intact C inPlay
        (node.fetchObject P object manifest requester concurrency).2.chunks
      rw [(fetchObject_kept object manifest requester concurrency).1]
      exact h
  | requestChunk source cid requester => exact h
  | findProviders cid =>
      show Intact C inPlay (node.findProviders cid).chunks
      unfold ChunkNode.findProviders
      split <;> exact h
  | storeChunk bytes => exact h.insert (hplay rfl) (decide_eq_true rfl)
  | forgetChunk cid => exact h.erase cid
  | gossiped ledger tiers => exact h
  | nextEvent event =>
      show Intact C inPlay (node.nextEvent C P event).2.chunks
      unfold ChunkNode.nextEvent
      split
      · exact h
      · cases event with
        | none => exact h
        | some event => exact (handle_outcome node event).intact hplay h

theorem intact_run (network : NetworkId) (discovery : Bool)
    {inputs : List (Input C validKey)}
    (hplay : ∀ i ∈ inputs, i.brings ⊆ inPlay) :
    Intact C inPlay
      (Machine.state (step P) (.new network discovery) inputs).chunks :=
  Machine.history_of (P := fun _ (s : ChunkNode) => Intact C inPlay s.chunks)
    hplay (fun a bytes ha => by simp [ChunkNode.new, ChunkStore.new] at ha)
    (fun _ _ i hi h => intact_step h i hi)

/-! ## What is reported -/

/-- What a report says was received is in the store. -/
def Holds (store : ChunkStore) : ChunkReport → Prop
  | .chunkReceived _ cid _ => store.has cid = true
  | .fetchComplete received _ _ => ∀ a ∈ received, store.has a = true
  | _ => True

theorem Holds.mono {store store' : ChunkStore}
    (hstore : ∀ a, store.has a = true → store'.has a = true)
    {report : ChunkReport} (h : Holds store report) : Holds store' report := by
  cases report with
  | chunkReceived peer cid bytes => exact hstore _ h
  | fetchComplete received unavailable overBudget =>
      exact fun a ha => hstore a (h a ha)
  | chunkUnavailable peer cid reason counted => trivial
  | providersFound cid count providers => trivial

theorem Outcome.reports {report : ChunkReport} {chunks : ChunkStore}
    {observations : AuditedObservations}
    (h : Outcome C brought node (some report) chunks observations) :
    Holds chunks report := by
  cases h with
  | kept hbytes hr hverifies =>
      exact Std.ExtTreeMap.contains_iff_mem.2
        ((BTreeMap.mem_insert_iff _ _ _ _).2 (.inl rfl))
  | tooMuch hbytes hr hverifies reason hchunks => trivial
  | mismatch hr hverifies reason => trivial
  | nothing _ hreport =>
      have hplain := hreport report rfl
      cases report with
      | chunkReceived peer cid bytes => cases hplain
      | fetchComplete received unavailable overBudget => cases hplain
      | chunkUnavailable peer cid reason counted => trivial
      | providersFound cid count providers => trivial

/-- What the running plan calls done is held, and so is what is left to
report. -/
structure Truthful (node : ChunkNode) : Prop where
  done : ∀ plan, node.fetch = some plan → ∀ a : Cid,
    plan.chunks[a]? = some .done → node.chunks.has a = true
  told : ∀ report ∈ node.pending, Holds node.chunks report

theorem truthful_new (network : NetworkId) (discovery : Bool) :
    (ChunkNode.new network discovery).Truthful :=
  ⟨fun p hp => (by cases hp), fun r hr => (by cases hr)⟩

theorem Truthful.mono (h : node.Truthful) (hfetch : next.fetch = node.fetch)
    (hpending : next.pending = node.pending)
    (hstore : ∀ a, node.chunks.has a = true → next.chunks.has a = true) :
    next.Truthful := by
  constructor
  · rw [hfetch]
    exact fun plan hplan a ha => hstore a (h.done plan hplan a ha)
  · rw [hpending]
    exact fun report hreport => (h.told report hreport).mono hstore

theorem holds_completion {store : ChunkStore}
    (h : ∀ a : Cid, plan.chunks[a]? = some .done → store.has a = true) :
    Holds store (completion plan) := by
  intro a ha
  obtain ⟨c, hc, rfl⟩ := List.mem_map.1 ha
  obtain ⟨hmem, hdone⟩ := List.mem_filter.1 hc
  have hstate := (BTreeMap.mem_toList_iff _ _).1 hmem
  rw [of_decide_eq_true hdone] at hstate
  exact h c.1 hstate

theorem Taken.truthful {inPlay : Set (List UInt8)}
    (h : Taken C P inPlay node plan next) (hfetch : node.fetch = some plan)
    (hnode : node.Truthful) : next.Truthful := by
  obtain ⟨mid, plan', hmid, rfl⟩ := h
  obtain ⟨hchunks, -, hpending⟩ := driveFetch_kept (P := P) mid
  have hdone : ∀ a : Cid, plan'.nextRequests.2.chunks[a]? = some .done →
      mid.chunks.has a = true := by
    intro a ha
    rcases hmid.done a (FetchPlan.issue_done _ _ ha) with hold | hnew
    · exact hmid.stored a (hnode.done plan hfetch a hold)
    · exact hnew
  have hnext : (mid.driveFetch P).fetch = some plan'.nextRequests.2 := by
    rw [(hmid.driving.sends hmid.fetch hmid.tidy).frame]
  have htold : ∀ report ∈ (mid.driveFetch P).pending,
      Holds mid.chunks report := by
    rw [hpending, hmid.pending]
    exact fun report hreport => (hnode.told report hreport).mono hmid.stored
  rw [reportCompletion_running hnext]
  split
  · refine ⟨fun p hp => (by cases hp), fun report hreport => ?_⟩
    show Holds (mid.driveFetch P).chunks report
    rw [hchunks]
    rcases List.mem_append.1 hreport with hold | hnew
    · exact htold report hold
    · rw [List.mem_singleton.1 hnew]
      exact holds_completion hdone
  · refine ⟨fun p hp a ha => ?_, fun report hreport => ?_⟩
    · rw [hnext] at hp
      cases hp
      rw [hchunks]
      exact hdone a ha
    · rw [hchunks]
      exact htold report hreport

theorem truthful_handle (h : node.Sound) (hnode : node.Truthful)
    (event : Event) : (node.handle C P event).2.Truthful := by
  have hstore : ∀ a, node.chunks.has a = true →
      (node.handle C P event).2.chunks.has a = true :=
    fun _ ha => (handle_outcome node event).holds ha
  cases hfetch : node.fetch with
  | none =>
      have hidle := Idle.handle (C := C) (P := P) ⟨h.tidy, hfetch, rfl,
        fun _ _ hr => hr⟩ event
      exact hnode.mono (hidle.fetch.trans hfetch.symm) hidle.pending hstore
  | some plan =>
      by_cases ha : node.Answers event
      · exact (handle_taken h hfetch ha subset_rfl).truthful hfetch hnode
      · rcases handle_stale (C := C) (P := P) ha with heq | ⟨q, found, heq⟩
        · rw [heq]
          exact hnode
        · rw [heq] at hstore ⊢
          obtain ⟨hsame, hpending, -⟩ := node.gather_work q found
          exact hnode.mono hsame hpending hstore

theorem truthful_start (h : node.Sound) (hnode : node.Truthful)
    (wanted : List Cid) (budget : Option (Cid × ℕ))
    (requester : PerNetworkIdentity C validKey) (concurrency : ℕ) :
    (node.startFetch P wanted budget requester concurrency).Truthful := by
  obtain ⟨hchunks, -, hpending⟩ := startFetch_kept (P := P) node wanted budget
    requester concurrency
  refine ⟨fun p hp a ha => ?_, ?_⟩
  · rw [hchunks]
    have hplan := (startFetch_spec (P := P) requester h wanted budget
      concurrency).2
    rw [hplan] at hp
    cases hp
    have hstarted := FetchPlan.issue_done _ _ ha
    have hrunning : (node.fetch.getD (.new [] concurrency)).chunks[a]? =
        some .done := by
      cases budget with
      | none =>
          exact FetchPlan.foldl_want_done FetchPlan.want_freed wanted hstarted
      | some b =>
          exact FetchPlan.foldl_want_done (fun _ _ => rfl)
            (Std.ExtTreeSet.ofList wanted compare : BTreeSet Cid).toList
              hstarted
    cases hfetch : node.fetch with
    | none =>
        rw [hfetch] at hrunning
        simp [FetchPlan.new, FetchPlan.extend] at hrunning
    | some plan =>
        rw [hfetch] at hrunning
        exact hnode.done plan hfetch a hrunning
  · rw [hpending, hchunks]
    exact hnode.told

/-- Whether an input drops a chunk. -/
def Input.forgets : Input C validKey → Bool
  | .forgetChunk _ => true
  | _ => false

/-- A step that drops nothing: what was held is held, and what is reported is
true. -/
theorem truthful_step (h : node.Sound) (hnode : node.Truthful)
    (input : Input C validKey) (hforgets : input.forgets = false) :
    (node.step P input).2.Truthful ∧
      (∀ a, node.chunks.has a = true →
        (node.step P input).2.chunks.has a = true) ∧
      ∀ report, (node.step P input).1 = .event (some report) →
        Holds (node.step P input).2.chunks report := by
  cases input with
  | fetchChunks cids requester concurrency =>
      refine ⟨truthful_start h hnode _ none requester concurrency,
        fun a ha => ?_,
        fun report hreport => by cases hreport⟩
      show (node.startFetch P _ none requester concurrency).chunks.has a = true
      rw [(startFetch_kept _ _ none requester concurrency).1]
      exact ha
  | fetchObject object manifest requester concurrency =>
      refine ⟨?_, fun a ha => ?_, fun report hreport => by cases hreport⟩
      · show (node.fetchObject P object manifest requester
          concurrency).2.Truthful
        unfold ChunkNode.fetchObject
        split
        · exact hnode
        · simp only
          split
          · exact hnode.mono rfl rfl fun _ ha => ha
          · show ChunkNode.Truthful
              (if _ then node.startFetch P _ _ requester concurrency else node)
            split
            · exact truthful_start h hnode _ _ requester concurrency
            · exact hnode
      · show (node.fetchObject P object manifest requester
          concurrency).2.chunks.has a = true
        rw [(fetchObject_kept object manifest requester concurrency).1]
        exact ha
  | requestChunk source cid requester =>
      exact ⟨hnode.mono rfl rfl fun _ ha => ha, fun _ ha => ha,
        fun report hreport => by cases hreport⟩
  | findProviders cid =>
      have hlooks := looks_findProviders h.tidy cid
      have hchunks : (node.findProviders cid).chunks = node.chunks := by
        rw [hlooks.frame]
      have hsame : (node.findProviders cid).fetch = node.fetch := by
        rw [hlooks.frame]
      have hpending : (node.findProviders cid).pending = node.pending := by
        rw [hlooks.frame]
      have hstore : ∀ a, node.chunks.has a = true →
          (node.findProviders cid).chunks.has a = true := by
        rw [hchunks]
        exact fun _ ha => ha
      exact ⟨hnode.mono hsame hpending hstore, hstore,
        fun report hreport => by cases hreport⟩
  | storeChunk bytes =>
      have hstore : ∀ a, node.chunks.has a = true →
          (node.storeChunk C bytes).2.chunks.has a = true := fun a ha =>
        Std.ExtTreeMap.contains_iff_mem.2 ((BTreeMap.mem_insert_iff _ _ _ _).2
          (.inr (Std.ExtTreeMap.contains_iff_mem.1 ha)))
      exact ⟨hnode.mono rfl rfl hstore, hstore,
        fun report hreport => by cases hreport⟩
  | forgetChunk cid => cases hforgets
  | gossiped ledger tiers =>
      exact ⟨hnode.mono rfl rfl fun _ ha => ha, fun _ ha => ha,
        fun report hreport => by cases hreport⟩
  | nextEvent event =>
      show (node.nextEvent C P event).2.Truthful ∧
        (∀ a, node.chunks.has a = true →
          (node.nextEvent C P event).2.chunks.has a = true) ∧
        ∀ report, Answer.event (node.nextEvent C P event).1 =
          .event (some report) →
          Holds (node.nextEvent C P event).2.chunks report
      unfold ChunkNode.nextEvent
      cases hpending : node.pending with
      | cons first rest =>
          have htold := hnode.told
          rw [hpending] at htold
          refine ⟨⟨hnode.done, fun r hr => htold r (List.mem_cons_of_mem _ hr)⟩,
            fun _ ha => ha, fun report hreport => ?_⟩
          cases hreport
          exact htold first List.mem_cons_self
      | nil =>
          cases event with
          | none => exact ⟨hnode, fun _ ha => ha,
            fun report hreport => by cases hreport⟩
          | some event =>
              have houtcome := handle_outcome (C := C) (P := P) node event
              refine ⟨truthful_handle h hnode event,
                fun a ha => houtcome.holds ha,
                fun report hreport => ?_⟩
              have hsome : (node.handle C P event).1 = some report := by
                simpa using hreport
              rw [hsome] at houtcome
              exact houtcome.reports

/-- A node holds nothing but chunks that are what they are named after; and as
long as none is dropped, whatever was reported as received, one by one or at
the end of a fetch, is held. -/
theorem received_is_held (P : PeerIds) (network : NetworkId)
    (discovery : Bool) (inputs : List (Input C validKey)) :
    let node := Machine.state (step P) (.new network discovery) inputs
    (∀ (a : Cid) (bytes : List UInt8), node.chunks.get a = some bytes →
      a.verifies C bytes = true) ∧
    ((∀ i ∈ inputs, i.forgets = false) →
      ∀ e ∈ Machine.trace (step P) (.new network discovery) inputs,
      (∀ peer cid len, e.2 = .event (some (.chunkReceived peer cid len)) →
        node.chunks.has cid = true) ∧
      ∀ received unavailable overBudget,
        e.2 = .event (some (.fetchComplete received unavailable overBudget)) →
        ∀ a ∈ received, node.chunks.has a = true) := by
  intro node
  have hintact : Intact C Set.univ node.chunks :=
    intact_run network discovery fun _ _ => Set.subset_univ _
  refine ⟨fun a bytes ha => (hintact a bytes ha).2, fun hinputs => ?_⟩
  -- every report of the run so far is true of the store as it is
  have hrun := @Machine.history _ _ _ (step P) (.new network discovery)
    (fun es (s : ChunkNode) => (∀ e ∈ es, e.1.forgets = false) →
      s.Sound ∧ s.Truthful ∧
      ∀ e ∈ es, ∀ report, e.2 = .event (some report) → Holds s.chunks report)
    (fun _ => ⟨sound_new network discovery, truthful_new network discovery,
      fun e he => by cases he⟩)
    (fun es s i h hall => by
      obtain ⟨hsound, htruthful, htrue⟩ :=
        h fun e he => hall e (List.mem_append_left _ he)
      obtain ⟨hnext, hstore, hreports⟩ :=
        truthful_step (P := P) hsound htruthful i
        (hall _ (List.mem_append_right _ (List.mem_singleton_self _)))
      refine ⟨hsound.step i, hnext, fun e he report hreport => ?_⟩
      rcases List.mem_append.1 he with he | he
      · exact (htrue e he report hreport).mono hstore
      · rw [List.mem_singleton.1 he] at hreport
        exact hreports report hreport) inputs
  have hall : ∀ e ∈ Machine.trace (step P) (.new network discovery) inputs,
      e.1.forgets = false := by
    intro e he
    refine hinputs e.1 ?_
    have hinput := List.mem_map_of_mem (f := Prod.fst) he
    rwa [Machine.map_fst_trace] at hinput
  obtain ⟨-, -, htrue⟩ := hrun hall
  exact fun e he => ⟨fun peer cid len hreport => htrue e he _ hreport,
    fun received unavailable overBudget hreport => htrue e he _ hreport⟩

/-! ## What is counted -/

/-- Whether an answer says that a chunk of `peer`'s came and verified. -/
def Answer.credits (peer : PeerId) : Answer → Bool
  | .event (some (.chunkReceived p _ _)) => p = peer
  | _ => false

/-- Whether an answer charges `peer`. -/
def Answer.charges (peer : PeerId) : Answer → Bool
  | .event (some (.chunkUnavailable p _ _ counted)) => counted && p = peer
  | _ => false

/-- Requests are kept with the peer they were sent to, and what is left to
report is the end of a fetch. -/
structure Addressed (P : PeerIds) (node : ChunkNode) : Prop where
  peers : ∀ (r : ℕ) (o : Outstanding), node.inflight[r]? = some o →
    o.peer = P.peerId o.source
  told : ∀ report ∈ node.pending, ∃ plan, report = completion plan

theorem Addressed.of_sub (h : Addressed P node)
    (hsub : ∀ (r : ℕ) (o : Outstanding), next.inflight[r]? = some o →
      node.inflight[r]? = some o)
    (hpending : next.pending = node.pending) : Addressed P next := by
  refine ⟨fun r o hr => h.peers r o (hsub r o hr), ?_⟩
  rw [hpending]
  exact h.told

theorem Addressed.request (h : Addressed P node) (source : PerNetworkIdentityId)
    (request : ChunkRequest) :
    Addressed P (node.sendChunkRequest P source request) := by
  refine ⟨fun r o hr => ?_, h.told⟩
  rw [show (node.sendChunkRequest P source request).inflight =
    node.inflight.insert node.nextRequest _ from rfl,
    BTreeMap.getElem?_insert_ite] at hr
  split at hr
  · cases hr
    rfl
  · exact h.peers r o hr

theorem Addressed.drive (h : Addressed P node) :
    Addressed P (node.driveFetch P) := by
  have hround : ∀ (issued : List (Cid × PerNetworkIdentityId))
      (node : ChunkNode), Addressed P node →
      Addressed P (issued.foldl (sendNext P) node) := by
    intro issued
    induction issued with
    | nil => exact fun _ h => h
    | cons r rest ih =>
        intro node h
        refine ih _ ?_
        unfold sendNext
        split
        · exact h
        · exact h.request r.2 _
  unfold driveFetch
  split
  · exact h
  · exact hround _ _ ⟨h.peers, h.told⟩

theorem Addressed.report (h : Addressed P node) :
    Addressed P node.reportCompletion := by
  cases hfetch : node.fetch with
  | none =>
      rw [reportCompletion_idle hfetch]
      exact h
  | some plan =>
      rw [reportCompletion_running hfetch]
      split
      · refine ⟨h.peers, fun report hreport => ?_⟩
        rcases List.mem_append.1 hreport with hold | hnew
        · exact h.told report hold
        · exact ⟨plan, List.mem_singleton.1 hnew⟩
      · exact h

theorem addressed_handle (h : node.Sound) (hnode : Addressed P node)
    (event : Event) : Addressed P (node.handle C P event).2 := by
  cases hfetch : node.fetch with
  | none =>
      have hidle := Idle.handle (C := C) (P := P) ⟨h.tidy, hfetch, rfl,
        fun _ _ hr => hr⟩ event
      exact hnode.of_sub hidle.inflight hidle.pending
  | some plan =>
      by_cases ha : node.Answers event
      · obtain ⟨mid, plan', hmid, heq⟩ :=
          handle_taken (C := C) (P := P) h hfetch ha subset_rfl
        rw [heq]
        exact (hnode.of_sub hmid.inflight hmid.pending).drive.report
      · rcases handle_stale (C := C) (P := P) ha with heq | ⟨q, found, heq⟩
        · rw [heq]
          exact hnode
        · obtain ⟨-, hpending, -, -, hinflight, -⟩ := node.gather_work q found
          rw [heq]
          exact hnode.of_sub (fun r o hr => by rw [← hinflight]; exact hr)
            hpending

theorem Addressed.start (h : Addressed P node) (wanted : List Cid)
    (budget : Option (Cid × ℕ)) (requester : PerNetworkIdentity C validKey)
    (concurrency : ℕ) :
    Addressed P (node.startFetch P wanted budget requester concurrency) := by
  have hlooks : ∀ (cids : List Cid) (mid : ChunkNode), Addressed P mid →
      Addressed P (cids.foldl findProviders mid) := by
    intro cids
    induction cids with
    | nil => exact fun _ h => h
    | cons cid cids ih =>
        intro mid h
        refine ih _ ?_
        unfold findProviders
        split
        · exact h
        · exact ⟨h.peers, h.told⟩
  rw [startFetch_eq]
  exact (hlooks _ (node.withPlan wanted budget requester concurrency)
    ⟨h.peers, h.told⟩).drive

theorem addressed_step (h : node.Sound) (hnode : Addressed P node)
    (input : Input C validKey) : Addressed P (node.step P input).2 := by
  cases input with
  | fetchChunks cids requester concurrency =>
      exact hnode.start _ none requester _
  | fetchObject object manifest requester concurrency =>
      show Addressed P
        (node.fetchObject P object manifest requester concurrency).2
      unfold ChunkNode.fetchObject
      split
      · exact hnode
      · simp only
        split
        · exact ⟨hnode.peers, hnode.told⟩
        · show Addressed P
            (if _ then node.startFetch P _ _ requester concurrency else node)
          split
          · exact hnode.start _ _ requester concurrency
          · exact hnode
  | requestChunk source cid requester => exact hnode.request source _
  | findProviders cid =>
      show Addressed P (node.findProviders cid)
      unfold ChunkNode.findProviders
      split
      · exact hnode
      · exact ⟨hnode.peers, hnode.told⟩
  | storeChunk bytes => exact ⟨hnode.peers, hnode.told⟩
  | forgetChunk cid => exact ⟨hnode.peers, hnode.told⟩
  | gossiped ledger tiers => exact ⟨hnode.peers, hnode.told⟩
  | nextEvent event =>
      show Addressed P (node.nextEvent C P event).2
      unfold ChunkNode.nextEvent
      cases hpending : node.pending with
      | cons first rest =>
          refine ⟨hnode.peers, fun report hreport => hnode.told report ?_⟩
          rw [hpending]
          exact List.mem_cons_of_mem _ hreport
      | nil =>
          cases event with
          | none => exact hnode
          | some event => exact addressed_handle h hnode event

/-- The two counters of an identity. -/
def counted (o : AuditedObservations) (s : PerNetworkIdentityId) : ℕ × ℕ :=
  ((o.forPeer s).verified.toNat, (o.forPeer s).failed.toNat)

theorem counted_recordVerified (o : AuditedObservations)
    (peer s : PerNetworkIdentityId) :
    counted (o.recordVerified peer) s =
      if peer = s then
        (min (UInt64.size - 1) ((counted o s).1 + 1), (counted o s).2)
      else counted o s := by
  unfold counted AuditedObservations.recordVerified
    ReliabilityObservations.forPeer
  simp only [BTreeMap.getElem?_insert_ite]
  by_cases h : peer = s
  · subst h
    rw [if_pos rfl, if_pos rfl]
    simp only [Option.getD_some]
    rw [UInt64.toNat_ofNat_of_lt']
    exact lt_of_le_of_lt (Nat.min_le_left _ _) (by decide)
  · rw [if_neg h, if_neg h]

theorem counted_recordFailed (o : AuditedObservations)
    (peer s : PerNetworkIdentityId) :
    counted (o.recordFailed peer) s =
      if peer = s then
        ((counted o s).1, min (UInt64.size - 1) ((counted o s).2 + 1))
      else counted o s := by
  unfold counted AuditedObservations.recordFailed
    ReliabilityObservations.forPeer
  simp only [BTreeMap.getElem?_insert_ite]
  by_cases h : peer = s
  · subst h
    rw [if_pos rfl, if_pos rfl]
    simp only [Option.getD_some]
    rw [UInt64.toNat_ofNat_of_lt']
    exact lt_of_le_of_lt (Nat.min_le_left _ _) (by decide)
  · rw [if_neg h, if_neg h]

/-- A counter after one more answer, which may raise it. -/
def raised (count : ℕ) (up : Bool) : ℕ :=
  min (UInt64.size - 1) (count + if up then 1 else 0)

theorem raised_false (n : UInt64) : raised n.toNat false = n.toNat :=
  Nat.min_eq_right (Nat.le_sub_one_of_lt n.toNat_lt)

/-- The counters of an identity after an event, next to what was reported. -/
theorem Outcome.counted (hP : Function.Injective P.peerId)
    (hnode : Addressed P node) {report : Option ChunkReport}
    {chunks : ChunkStore} {observations : AuditedObservations}
    (h : Outcome C brought node report chunks observations)
    (s : PerNetworkIdentityId) :
    counted observations s =
      (raised (counted node.observations s).1
          ((Answer.event report).credits (P.peerId s)),
        raised (counted node.observations s).2
          ((Answer.event report).charges (P.peerId s))) := by
  have hsame : ∀ {r : ℕ} {sent : Outstanding}, node.inflight[r]? = some sent →
      decide (sent.peer = P.peerId s) = decide (sent.source = s) := by
    intro r sent hr
    rw [hnode.peers r sent hr]
    exact decide_eq_decide.2 hP.eq_iff
  have hquiet : ChunkNode.counted node.observations s =
      (raised (ChunkNode.counted node.observations s).1 false,
        raised (ChunkNode.counted node.observations s).2 false) :=
    Prod.ext (raised_false _).symm (raised_false _).symm
  have hfst := congrArg Prod.fst hquiet
  have hsnd := congrArg Prod.snd hquiet
  cases h with
  | @kept r sent bytes hbytes hr hverifies =>
      rw [counted_recordVerified]
      show _ = (raised _ (decide (sent.peer = P.peerId s)), raised _ false)
      rw [hsame hr]
      by_cases hs : sent.source = s
      · rw [if_pos hs, decide_eq_true hs]
        exact Prod.ext rfl hsnd
      · rw [if_neg hs, decide_eq_false hs]
        exact hquiet
  | tooMuch hbytes hr hverifies reason hchunks => exact hquiet
  | @mismatch r sent bytes hr hverifies reason =>
      rw [counted_recordFailed]
      show _ = (raised _ false,
        raised _ (true && decide (sent.peer = P.peerId s)))
      rw [hsame hr, Bool.true_and]
      by_cases hs : sent.source = s
      · rw [if_pos hs, decide_eq_true hs]
        exact Prod.ext hfst rfl
      · rw [if_neg hs, decide_eq_false hs]
        exact hquiet
  | nothing _ hreport =>
      cases report with
      | none => exact hquiet
      | some report =>
          have hplain := hreport report rfl
          cases report with
          | chunkReceived peer cid bytes => cases hplain
          | fetchComplete received unavailable overBudget => cases hplain
          | providersFound cid count providers => exact hquiet
          | chunkUnavailable peer cid reason counts =>
              have hno : counts = false := by
                simpa [ChunkReport.isPlain] using hplain
              subst hno
              exact hquiet

theorem counted_step (hP : Function.Injective P.peerId)
    (hnode : Addressed P node) (input : Input C validKey)
    (s : PerNetworkIdentityId) :
    counted (node.step P input).2.observations s =
      (raised (counted node.observations s).1
          ((node.step P input).1.credits (P.peerId s)),
        raised (counted node.observations s).2
          ((node.step P input).1.charges (P.peerId s))) := by
  have hquiet : counted node.observations s =
      (raised (counted node.observations s).1 false,
        raised (counted node.observations s).2 false) :=
    Prod.ext (raised_false _).symm (raised_false _).symm
  cases input with
  | fetchChunks cids requester concurrency =>
      show counted (node.startFetch P _ none requester concurrency).observations
        s = _
      rw [(startFetch_kept _ _ none requester concurrency).2.1]
      exact hquiet
  | fetchObject object manifest requester concurrency =>
      show counted (node.fetchObject P object manifest requester
        concurrency).2.observations s = _
      rw [(fetchObject_kept object manifest requester concurrency).2.1]
      exact hquiet
  | requestChunk source cid requester => exact hquiet
  | findProviders cid =>
      show counted (node.findProviders cid).observations s = _
      have hobserved : (node.findProviders cid).observations =
        node.observations := by
        unfold ChunkNode.findProviders
        split <;> rfl
      rw [hobserved]
      exact hquiet
  | storeChunk bytes => exact hquiet
  | forgetChunk cid => exact hquiet
  | gossiped ledger tiers => exact hquiet
  | nextEvent event =>
      show counted (node.nextEvent C P event).2.observations s =
        (raised _ ((Answer.event (node.nextEvent C P event).1).credits _),
          raised _ ((Answer.event (node.nextEvent C P event).1).charges _))
      unfold ChunkNode.nextEvent
      cases hpending : node.pending with
      | cons first rest =>
          -- what is delivered late is the end of a fetch and counts for nobody
          obtain ⟨plan, hfirst⟩ := hnode.told first (by
            rw [hpending]
            exact List.mem_cons_self)
          rw [hfirst]
          exact hquiet
      | nil =>
          cases event with
          | none => exact hquiet
          | some event => exact (handle_outcome node event).counted hP hnode s

/-- What a node has counted for and against each identity is what it reported
of it, one by one, up to where the counters end: nothing counts for a peer but
a chunk it sent that verified, and nothing against it but one that did not. -/
theorem observations_are_reports (P : PeerIds)
    (hP : Function.Injective P.peerId) (network : NetworkId) (discovery : Bool)
    (inputs : List (Input C validKey)) (s : PerNetworkIdentityId) :
    let answers := Machine.answers (step P) (.new network discovery) inputs
    let seen := (Machine.state (step P)
      (.new network discovery) inputs).observations.forPeer s
    seen.verified.toNat = min (UInt64.size - 1)
        (answers.countP fun a => a.credits (P.peerId s)) ∧
      seen.failed.toNat = min (UInt64.size - 1)
        (answers.countP fun a => a.charges (P.peerId s)) := by
  intro answers seen
  have hraised : ∀ (count : ℕ) (up : Bool),
      raised (min (UInt64.size - 1) count) up =
        min (UInt64.size - 1) (count + if up then 1 else 0) := by
    intro count up
    unfold raised
    split <;> omega
  obtain ⟨-, -, hcounted⟩ := @Machine.history _ _ _ (step P)
    (.new network discovery)
    (fun es (node : ChunkNode) => node.Sound ∧ Addressed P node ∧
      counted node.observations s =
        (min (UInt64.size - 1)
          ((es.map Prod.snd).countP fun a => a.credits (P.peerId s)),
        min (UInt64.size - 1)
          ((es.map Prod.snd).countP fun a => a.charges (P.peerId s))))
    ⟨sound_new network discovery,
      ⟨fun r o hr => by simp [ChunkNode.new] at hr, fun r hr => (by cases hr)⟩,
      rfl⟩
    (fun es node i h => by
      obtain ⟨hsound, haddressed, hsofar⟩ := h
      refine ⟨hsound.step i, addressed_step hsound haddressed i, ?_⟩
      rw [counted_step hP haddressed i s, hsofar, hraised, hraised,
        List.map_append, List.countP_append, List.countP_append, List.map_cons,
        List.map_nil, List.countP_singleton, List.countP_singleton]) inputs
  exact ⟨congrArg Prod.fst hcounted, congrArg Prod.snd hcounted⟩

end ChunkNode

namespace Sample

theorem peerId_injective : Function.Injective peerIds.peerId := by
  intro a b hab
  have hbytes : a.key.bytes.toList = b.key.bytes.toList :=
    congrArg PeerId.bytes hab
  exact PerNetworkIdentityId.ext (VerifyingKey.ext
    (Bytes.toNats_injective (congrArg (List.map UInt8.toNat) hbytes)))

/-- One chunk is asked for twice. The first answer is the chunk, the second
is not. -/
def twoAnswers : List (ChunkNode.Input .sample fun _ => true) :=
  [.requestChunk (identity 2) ⟨hash 1⟩ (fetcher 1),
    .requestChunk (identity 2) ⟨hash 1⟩ (fetcher 1),
    .nextEvent (some (.response 0 (.chunk [1]))),
    .nextEvent (some (.response 1 (.chunk [2])))]

end Sample

theorem observations_are_reports_two :
    let seen := (Machine.state (ChunkNode.step Sample.peerIds)
      (.new Sample.network true) Sample.twoAnswers).observations.forPeer
        (Sample.identity 2)
    seen.verified.toNat = 1 ∧ seen.failed.toNat = 1 := by
  obtain ⟨hverified, hfailed⟩ := ChunkNode.observations_are_reports
    Sample.peerIds Sample.peerId_injective Sample.network true Sample.twoAnswers
    (Sample.identity 2)
  exact ⟨hverified.trans (by decide +kernel), hfailed.trans (by decide +kernel)⟩

end Intranet
