import Intranet.Proofs.Fetch

/-!
# What a plan waits for

A node that drives a plan wants to know three things that the books do not
say: where a chunk that waits or is in flight came from (`Move.chunk`), that a
plan which is not over has a chunk to show for it (`Open`), and that a round
of issuing does all there is to do (`Books.nextRequests_again`).
-/

namespace Intranet

namespace FetchPlan

open ChunkState

/-! ## What calls do to the state of a chunk -/

variable {plan next : FetchPlan} {es : List Event} {a cid : Cid}

theorem getElem?_put (plan : FetchPlan) (cid a : Cid) (t : ChunkState)
    (inflight : ℕ) :
    (plan.put cid t inflight).chunks[a]? =
      if cid = a then some t else plan.chunks[a]? := by
  unfold put
  rw [BTreeMap.getElem?_insert_ite]
  by_cases hca : cid = a
  · rw [if_pos hca, if_pos hca]
  · rw [if_neg hca, if_neg hca]

/-- A chunk a move changes is new and waits, or was in the plan and does not
wait: it is in flight only where a request was issued for it. -/
theorem Move.chunk (h : Move plan es next) (a : Cid) :
    next.chunks[a]? = plan.chunks[a]? ∨
      (.wanted a ∈ es ∧ next.chunks[a]? = some .awaitingProviders) ∨
      ∃ s t, plan.chunks[a]? = some s ∧ next.chunks[a]? = some t ∧
        t.isAwaiting = false ∧
        (t.isInFlight = true → ∃ source, .issued a source ∈ es) := by
  have hput : ∀ {cid : Cid} {s t : ChunkState} (inflight : ℕ),
      plan.chunks[cid]? = some s → t.isAwaiting = false →
      (t.isInFlight = true → ∃ source, .issued cid source ∈ es) →
      (plan.put cid t inflight).chunks[a]? = plan.chunks[a]? ∨
      (.wanted a ∈ es ∧
        (plan.put cid t inflight).chunks[a]? = some .awaitingProviders) ∨
      ∃ s t', plan.chunks[a]? = some s ∧
        (plan.put cid t inflight).chunks[a]? = some t' ∧
        t'.isAwaiting = false ∧
        (t'.isInFlight = true → ∃ source, .issued a source ∈ es) := by
    intro cid s t inflight hs hawait hissued
    rw [getElem?_put]
    by_cases hca : cid = a
    · subst hca
      rw [if_pos rfl]
      exact .inr (.inr ⟨s, t, hs, rfl, hawait, hissued⟩)
    · rw [if_neg hca]
      exact .inl rfl
  cases h with
  | wanted cid hs =>
      rw [getElem?_put]
      by_cases hca : cid = a
      · subst hca
        rw [if_pos rfl]
        exact .inr (.inl ⟨List.mem_singleton_self _, rfl⟩)
      · rw [if_neg hca]
        exact .inl rfl
  | answered cid ordered holders hs =>
      refine hput _ hs ?_ ?_ <;> unfold answerState <;> split <;>
        simp [isAwaiting, isInFlight]
  | issued cid source rest holders hs hroom =>
      exact hput _ hs rfl fun _ => ⟨source, List.mem_singleton_self _⟩
  | abandoned cid s hs hpending =>
      exact hput (t := .overBudget) _ hs rfl fun h => by cases h
  | landed cid cs n t hs ht =>
      refine hput _ hs ?_ ?_
      · rcases ht with rfl | ⟨rfl, -⟩ | ⟨rfl, -⟩ | ⟨rfl, -⟩ <;> rfl
      · rcases ht with rfl | ⟨rfl, -⟩ | ⟨rfl, -⟩ | ⟨rfl, -⟩ <;>
          exact fun h => by cases h
  | freed => exact .inl rfl
  | budgeted => exact .inl rfl
  | charged => exact .inl rfl

theorem moves_mem (h : Moves plan es next) (ha : a ∈ next.chunks) :
    a ∈ plan.chunks ∨ .wanted a ∈ es := by
  induction h with
  | nil => exact .inl ha
  | @cons s m t es fs hmove _ ih =>
      rcases ih ha with hm | hwanted
      · rw [BTreeMap.mem_iff_exists] at hm ⊢
        obtain ⟨v, hv⟩ := hm
        rcases hmove.chunk a with heq | ⟨hwanted, -⟩ | ⟨s, -, hs, -⟩
        · rw [heq] at hv
          exact .inl ⟨v, hv⟩
        · exact .inr (List.mem_append_left _ hwanted)
        · exact .inl ⟨s, hs⟩
      · exact .inr (List.mem_append_right _ hwanted)

/-- No move takes a chunk out of the plan. -/
theorem moves_mem_of_mem (h : Moves plan es next) (ha : a ∈ plan.chunks) :
    a ∈ next.chunks := by
  refine h.invariant (P := fun p => a ∈ p.chunks) (fun s es t hs hmove => ?_) ha
  rw [BTreeMap.mem_iff_exists] at hs ⊢
  obtain ⟨v, hv⟩ := hs
  rcases hmove.chunk a with heq | ⟨-, ht⟩ | ⟨-, t, -, ht, -⟩
  · exact ⟨v, heq.trans hv⟩
  · exact ⟨_, ht⟩
  · exact ⟨t, ht⟩

theorem moves_awaiting (h : Moves plan es next)
    (ha : next.chunks[a]? = some .awaitingProviders) :
    plan.chunks[a]? = some .awaitingProviders ∨ .wanted a ∈ es := by
  induction h with
  | nil => exact .inl ha
  | @cons s m t es fs hmove _ ih =>
      rcases ih ha with hm | hwanted
      · rcases hmove.chunk a with heq | ⟨hwanted, -⟩ | ⟨-, t, -, ht, hawait, -⟩
        · exact .inl (heq.symm.trans hm)
        · exact .inr (List.mem_append_left _ hwanted)
        · rw [hm] at ht
          cases ht
          cases hawait
      · exact .inr (List.mem_append_right _ hwanted)

theorem moves_inFlight {cs : List PerNetworkIdentityId} {n : UInt32}
    (h : Moves plan es next) (ha : next.chunks[a]? = some (.inFlight cs n)) :
    plan.chunks[a]? = some (.inFlight cs n) ∨
      ∃ source, .issued a source ∈ es := by
  induction h with
  | nil => exact .inl ha
  | @cons s m t es fs hmove _ ih =>
      rcases ih ha with hm | ⟨source, hissued⟩
      · rcases hmove.chunk a with heq | ⟨-, ht⟩ | ⟨-, t, -, ht, -, hissued⟩
        · exact .inl (heq.symm.trans hm)
        · rw [hm] at ht
          cases ht
        · rw [hm] at ht
          cases ht
          obtain ⟨source, hsource⟩ := hissued rfl
          exact .inr ⟨source, List.mem_append_left _ hsource⟩
      · exact .inr ⟨source, List.mem_append_right _ hissued⟩

/-- What a call wants is in the plan. -/
theorem mem_want : a ∈ (plan.want cid).chunks ↔ a ∈ plan.chunks ∨ a = cid := by
  unfold want
  split
  · rw [BTreeMap.mem_insert_iff]
    tauto
  · rw [BTreeMap.mem_insert_iff]
    tauto
  · next s _ hs =>
      refine ⟨.inl, fun h => h.elim id fun heq => ?_⟩
      rw [heq, BTreeMap.mem_iff_exists]
      exact ⟨s, hs⟩

theorem mem_foldl_want {f : FetchPlan → Cid → FetchPlan}
    (hround : ∀ plan cid, (f plan cid).chunks = (plan.want cid).chunks)
    (cids : List Cid) (plan : FetchPlan) :
    a ∈ (cids.foldl f plan).chunks ↔ a ∈ plan.chunks ∨ a ∈ cids := by
  induction cids generalizing plan with
  | nil => simp
  | cons cid cids ih =>
      rw [List.foldl_cons, ih, hround, mem_want, List.mem_cons, or_assoc]

theorem want_freed (plan : FetchPlan) (cid : Cid) :
    ({ plan with unbudgeted := plan.unbudgeted.insert cid }.want cid).chunks =
      (plan.want cid).chunks := by
  unfold want
  simp only
  split <;> rfl

theorem mem_extend {cids : List Cid} :
    a ∈ (plan.extend cids).chunks ↔ a ∈ plan.chunks ∨ a ∈ cids :=
  mem_foldl_want want_freed cids plan

theorem mem_extendWithin {object : Cid} {cids : List Cid} {bytes : ℕ} :
    a ∈ (plan.extendWithin object cids bytes).chunks ↔
      a ∈ plan.chunks ∨ a ∈ cids := by
  have hfold := mem_foldl_want (a := a) (fun plan cid => rfl)
    (Std.ExtTreeSet.ofList cids compare : BTreeSet Cid).toList plan (f := want)
  rw [Std.ExtTreeSet.mem_toList, Std.ExtTreeSet.mem_ofList,
    List.contains_eq_mem, decide_eq_true_eq] at hfold
  exact hfold

/-! ## Open plans -/

/-- A plan that holds chunks holds one that is neither here nor given up. -/
def Open (plan : FetchPlan) : Prop :=
  ∀ a ∈ plan.chunks, ∃ (b : Cid) (t : ChunkState),
    plan.chunks[b]? = some t ∧ t.isSettled = false

theorem exists_unsettled (h : plan.isComplete = false) :
    ∃ (b : Cid) (t : ChunkState),
      plan.chunks[b]? = some t ∧ t.isSettled = false := by
  unfold isComplete at h
  rw [List.all_eq_false] at h
  obtain ⟨c, hc, hsettled⟩ := h
  exact ⟨c.1, c.2, (BTreeMap.mem_toList_iff _ _).1 hc,
    Bool.eq_false_iff.2 hsettled⟩

theorem open_of_not_isComplete (h : plan.isComplete = false) : plan.Open :=
  fun _ _ => exists_unsettled h

theorem not_isComplete {t : ChunkState} (ha : plan.chunks[a]? = some t)
    (ht : t.isSettled = false) : plan.isComplete = false := by
  unfold isComplete
  rw [List.all_eq_false]
  exact ⟨(a, t), (BTreeMap.mem_toList_iff _ _).2 ha, Bool.eq_false_iff.1 ht⟩

theorem Open.want (h : plan.Open) (cid : Cid) : (plan.want cid).Open := by
  have hinsert : ({ plan with
      chunks := plan.chunks.insert cid .awaitingProviders } : FetchPlan).Open :=
    fun _ _ => ⟨cid, .awaitingProviders, by simp, rfl⟩
  unfold FetchPlan.want
  split
  · exact hinsert
  · exact hinsert
  · exact h

theorem Open.foldl_want {f : FetchPlan → Cid → FetchPlan}
    (hround : ∀ plan cid, (f plan cid).chunks = (plan.want cid).chunks)
    (cids : List Cid) {plan : FetchPlan} (h : plan.Open) :
    (cids.foldl f plan).Open := by
  induction cids generalizing plan with
  | nil => exact h
  | cons cid cids ih =>
      refine ih ?_
      unfold Open
      rw [hround]
      exact h.want cid

theorem Open.extend (h : plan.Open) (cids : List Cid) :
    (plan.extend cids).Open :=
  h.foldl_want want_freed cids

theorem Open.extendWithin (h : plan.Open) (object : Cid) (cids : List Cid)
    (bytes : ℕ) : (plan.extendWithin object cids bytes).Open :=
  h.foldl_want (fun _ _ => rfl)
    (Std.ExtTreeSet.ofList cids compare : BTreeSet Cid).toList

/-- What is issued was neither here nor given up, and is not now. -/
theorem issue_unsettled (order : List Cid) (plan : FetchPlan) {b : Cid}
    {t : ChunkState} (hb : plan.chunks[b]? = some t)
    (ht : t.isSettled = false) :
    ∃ t', (issue order plan).2.chunks[b]? = some t' ∧
      t'.isSettled = false := by
  induction order generalizing plan t with
  | nil => exact ⟨t, hb, ht⟩
  | cons cid rest ih =>
      unfold issue
      split
      · exact ⟨t, hb, ht⟩
      · split
        · next source remaining holders hs =>
            by_cases hcb : cid = b
            · exact ih _ (t := .inFlight remaining holders)
                (by simp [hcb]) rfl
            · refine ih _ ?_ ht
              simp only [BTreeMap.getElem?_insert_ite, if_neg hcb]
              exact hb
        · exact ih _ hb ht

theorem Open.nextRequests (h : plan.Open) : plan.nextRequests.2.Open := by
  intro a ha
  have hmem := moves_mem (moves_issue plan.requestOrder plan) ha
  have hplan : a ∈ plan.chunks := by
    refine hmem.resolve_right fun hwanted => ?_
    obtain ⟨r, -, hr⟩ := List.mem_map.1 hwanted
    cases hr
  obtain ⟨b, t, hb, ht⟩ := h a hplan
  obtain ⟨t', hb', ht'⟩ := issue_unsettled plan.requestOrder plan hb ht
  exact ⟨b, t', hb', ht'⟩

/-! ## Asking again -/

theorem issue_ready (order : List Cid) (plan : FetchPlan)
    {cs : List PerNetworkIdentityId} {n : UInt32}
    (ha : (issue order plan).2.chunks[a]? = some (.ready cs n)) :
    plan.chunks[a]? = some (.ready cs n) := by
  induction order generalizing plan with
  | nil => exact ha
  | cons cid rest ih =>
      unfold issue at ha
      split at ha
      · exact ha
      · split at ha
        · have hrest := ih _ ha
          rw [BTreeMap.getElem?_insert_ite] at hrest
          split at hrest
          · cases hrest
          · exact hrest
        · exact ih _ ha

/-- A round of issuing stops at the limit or runs out of chunks to ask for. -/
theorem issue_stops (order : List Cid) (hbooks : plan.Books) :
    (issue order plan).2.concurrency ≤ (issue order plan).2.inflight ∨
      ∀ cid ∈ order, ∀ cs n,
        (issue order plan).2.chunks[cid]? ≠ some (.ready cs n) := by
  induction order generalizing plan with
  | nil => exact .inr (by simp)
  | cons cid rest ih =>
      unfold issue
      split
      · next hfull => exact .inl hfull
      · next hroom =>
          split
          · next source remaining holders hs =>
              have hone := hbooks.move
                (.issued cid source remaining holders hs
                  (Nat.lt_of_not_le hroom))
              refine (ih hone).imp id fun hrest c hc => ?_
              rcases List.mem_cons.1 hc with rfl | hc
              · intro cs n hready
                have hback := issue_ready rest _ hready
                simp at hback
              · exact hrest c hc
          · next hs =>
              refine (ih hbooks).imp id fun hrest c hc => ?_
              rcases List.mem_cons.1 hc with rfl | hc
              · intro cs n hready
                have hback := issue_ready rest _ hready
                cases cs with
                | nil => exact hbooks.offered c [] n hback rfl
                | cons source remaining => exact hs source remaining n hback
              · exact hrest c hc

/-- Asked once more, a plan has nothing to send. -/
theorem Books.nextRequests_again (h : plan.Books) :
    plan.nextRequests.2.nextRequests.1 = [] := by
  show (issue plan.nextRequests.2.requestOrder plan.nextRequests.2).1 = []
  cases horder : plan.nextRequests.2.requestOrder with
  | nil => rfl
  | cons c rest =>
      rcases issue_stops plan.requestOrder h with hfull | hnone
      · unfold issue
        exact congrArg Prod.fst (if_pos hfull)
      · exfalso
        have hmem : c ∈ plan.nextRequests.2.requestOrder := by
          rw [horder]
          exact List.mem_cons_self
        obtain ⟨cs, n, hready⟩ := mem_requestOrder.1 hmem
        exact hnone c (mem_requestOrder.2 ⟨cs, n, issue_ready _ _ hready⟩) cs n
          hready

/-! ## What is done -/

theorem want_done (ha : (plan.want cid).chunks[a]? = some .done) :
    plan.chunks[a]? = some .done := by
  have hinsert : (plan.chunks.insert cid .awaitingProviders)[a]? = some .done →
      plan.chunks[a]? = some .done := by
    intro h
    rw [BTreeMap.getElem?_insert_ite] at h
    split at h
    · cases h
    · exact h
  unfold want at ha
  split at ha
  · exact hinsert ha
  · exact hinsert ha
  · exact ha

theorem foldl_want_done {f : FetchPlan → Cid → FetchPlan}
    (hround : ∀ plan cid, (f plan cid).chunks = (plan.want cid).chunks)
    (cids : List Cid) {plan : FetchPlan}
    (ha : (cids.foldl f plan).chunks[a]? = some .done) :
    plan.chunks[a]? = some .done := by
  induction cids generalizing plan with
  | nil => exact ha
  | cons cid cids ih =>
      have hone := ih ha
      rw [hround] at hone
      exact want_done hone

theorem issue_done (order : List Cid) (plan : FetchPlan)
    (ha : (issue order plan).2.chunks[a]? = some .done) :
    plan.chunks[a]? = some .done := by
  induction order generalizing plan with
  | nil => exact ha
  | cons cid rest ih =>
      unfold issue at ha
      split at ha
      · exact ha
      · split at ha
        · have hrest := ih _ ha
          rw [BTreeMap.getElem?_insert_ite] at hrest
          split at hrest
          · cases hrest
          · exact hrest
        · exact ih _ ha

end FetchPlan

end Intranet
