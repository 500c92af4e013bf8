import Intranet.Proofs.FetchBudget

/-!
# A lying manifest costs what it declares

The other side of `FetchBudget.lean`. Whatever is fetched and whatever
arrives, the bytes charged to a budget and what remains of it add up to the
allowance it was made with (`Balanced`), so no run charges it more. A chunk is
kept because somebody wants it without a budget or because a budget had room
and paid. And a chunk that is given up on for its budgets is one that nobody
with room wants (`Settled`), at every point of every run: a caller who wants
it again takes it back.
-/

namespace Intranet

namespace FetchPlan

open ChunkState

variable {plan : FetchPlan} {cid : Cid} {bytes : ℕ}

/-! ## What is charged -/

/-- What a call charges the budget at `k`: the bytes of a chunk in flight that
the budget takes part in and has room for. -/
def charges (plan : FetchPlan) (k : ℕ) : Call → ℕ
  | .admitChunk cid bytes =>
      if plan.chunks[cid]?.any isInFlight &&
          plan.budgets[k]?.any fun b => b.hasRoom cid bytes then bytes
      else 0
  | _ => 0

/-- What a run charges the budget at `k`. -/
def chargedTo (plan : FetchPlan) (k : ℕ) : List Call → ℕ
  | [] => 0
  | c :: rest => plan.charges k c + (plan.call c).2.chargedTo k rest

/-- The allowance a call makes a budget with. -/
def grants : Call → List ℕ
  | .extendWithin _ _ bytes => [bytes]
  | _ => []

/-- The allowances of a run, in the order of its budgets. -/
def allowances (calls : List Call) : List ℕ := calls.flatMap grants

/-- Each budget holds its allowance less what it was charged. -/
structure Balanced (plan : FetchPlan) (allowed : List ℕ) (charged : ℕ → ℕ) :
    Prop where
  count : plan.budgets.length = allowed.length
  holds : ∀ k b, plan.budgets[k]? = some b →
    allowed[k]? = some (b.remaining + charged k)
  fresh : ∀ k, plan.budgets.length ≤ k → charged k = 0

theorem charge_remaining (b : Budget) (cid : Cid) (bytes : ℕ) :
    (b.charge cid bytes).remaining +
      (if b.hasRoom cid bytes then bytes else 0) = b.remaining := by
  unfold Budget.charge Budget.hasRoom
  cases b.takesPart cid with
  | false => rfl
  | true =>
      by_cases hroom : bytes ≤ b.remaining
      · simp [hroom]
      · simp [hroom]

theorem Balanced.congr {allowed : List ℕ} {charged charged' : ℕ → ℕ}
    {next : FetchPlan} (h : Balanced plan allowed charged)
    (hbudgets : next.budgets = plan.budgets)
    (hcharged : ∀ k, charged' k = charged k) :
    Balanced next allowed charged' where
  count := by rw [hbudgets, h.count]
  holds k b hb := by
    rw [hbudgets] at hb
    rw [h.holds k b hb, hcharged]
  fresh k hk := by
    rw [hbudgets] at hk
    rw [hcharged, h.fresh k hk]

theorem foldl_extend_budgets (cids : List Cid) (plan : FetchPlan) :
    (plan.extend cids).budgets = plan.budgets := by
  unfold extend
  induction cids generalizing plan with
  | nil => rfl
  | cons cid cids ih => rw [List.foldl_cons, ih, want_budgets]

theorem issue_budgets (order : List Cid) (plan : FetchPlan) :
    (issue order plan).2.budgets = plan.budgets := by
  induction order generalizing plan with
  | nil => rfl
  | cons cid rest ih =>
      unfold issue
      split
      · rfl
      · split
        · exact ih _
        · exact ih plan

theorem admit_budgets_inFlight {cs : List PerNetworkIdentityId} {n : UInt32}
    (h : plan.chunks[cid]? = some (.inFlight cs n)) :
    (plan.admitChunk cid bytes).2.budgets =
      plan.budgets.map fun b => b.charge cid bytes := by
  rw [admit_inFlight bytes h, ← afterCharge_budgets]
  split <;> rfl

theorem Balanced.admitted {allowed : List ℕ} {charged : ℕ → ℕ}
    (h : Balanced plan allowed charged) :
    Balanced (plan.admitChunk cid bytes).2 allowed
      fun k => charged k + plan.charges k (.admitChunk cid bytes) := by
  by_cases hflight : ∃ cs n, plan.chunks[cid]? = some (.inFlight cs n)
  · obtain ⟨cs, n, hs⟩ := hflight
    have hbudgets : (plan.admitChunk cid bytes).2.budgets =
        plan.budgets.map fun b => b.charge cid bytes :=
      admit_budgets_inFlight hs
    have hcharges : ∀ k, plan.charges k (.admitChunk cid bytes) =
        if plan.budgets[k]?.any fun b => b.hasRoom cid bytes then bytes
        else 0 := by
      intro k
      rw [charges, hs]
      rfl
    refine ⟨by rw [hbudgets, List.length_map, h.count], fun k b hb => ?_,
      fun k hk => ?_⟩
    · rw [hbudgets, List.getElem?_map, Option.map_eq_some_iff] at hb
      obtain ⟨old, hold, rfl⟩ := hb
      have hpaid := charge_remaining old cid bytes
      rw [h.holds k old hold, hcharges, hold, Option.any_some]
      congr 1
      omega
    · rw [hbudgets, List.length_map] at hk
      rw [hcharges, List.getElem?_eq_none hk, h.fresh k hk]
      rfl
  · have hstays := admit_not_inFlight bytes fun cs n hs => hflight ⟨cs, n, hs⟩
    refine h.congr (by rw [hstays]) fun k => ?_
    have hidle : plan.chunks[cid]?.any isInFlight = false := by
      cases hs : plan.chunks[cid]? with
      | none => rfl
      | some s =>
          cases s with
          | inFlight cs n => exact absurd ⟨cs, n, hs⟩ hflight
          | _ => rfl
    rw [charges, hidle]
    rfl

/-- A budget that is declared joins the others, untouched. -/
theorem Balanced.extendWithin {allowed : List ℕ} {charged : ℕ → ℕ}
    (h : Balanced plan allowed charged) (object : Cid) (cids : List Cid)
    (bytes : ℕ) :
    Balanced (plan.extendWithin object cids bytes) (allowed ++ [bytes])
      fun k => charged k + 0 := by
  have hbudgets : (plan.extendWithin object cids bytes).budgets =
      plan.budgets ++
        [⟨object, Std.ExtTreeSet.ofList cids compare, bytes, false⟩] := by
    unfold FetchPlan.extendWithin
    simp only
    rw [foldl_want_budgets]
  refine ⟨?_, fun k b hb => ?_, fun k hk => ?_⟩
  · rw [hbudgets, List.length_append, List.length_append, h.count]
    rfl
  · rw [hbudgets] at hb
    rcases Nat.lt_trichotomy k plan.budgets.length with hlt | rfl | hgt
    · rw [List.getElem?_append_left hlt] at hb
      rw [List.getElem?_append_left (h.count ▸ hlt), h.holds k b hb]
      rfl
    · rw [List.getElem?_append_right le_rfl, Nat.sub_self] at hb
      cases hb
      rw [List.getElem?_append_right h.count.ge, h.count, Nat.sub_self,
        ← h.count, h.fresh _ le_rfl]
      rfl
    · rw [List.getElem?_eq_none (by
        rw [List.length_append, List.length_singleton]
        omega)] at hb
      cases hb
  · rw [hbudgets, List.length_append] at hk
    exact h.fresh k (by omega)

/-- A call that declares no budget and charges none. -/
theorem Balanced.idle {allowed : List ℕ} {charged : ℕ → ℕ} {c : Call}
    (h : Balanced plan allowed charged) (hgrants : grants c = [])
    (hcharges : ∀ k, plan.charges k c = 0)
    (hbudgets : (plan.call c).2.budgets = plan.budgets) :
    Balanced (plan.call c).2 (allowed ++ grants c)
      fun k => charged k + plan.charges k c := by
  rw [hgrants, List.append_nil]
  refine h.congr hbudgets fun k => ?_
  rw [hcharges, Nat.add_zero]

/-- One call. -/
theorem Balanced.call {allowed : List ℕ} {charged : ℕ → ℕ}
    (h : Balanced plan allowed charged) (c : Call) :
    Balanced (plan.call c).2 (allowed ++ grants c)
      fun k => charged k + plan.charges k c := by
  cases c with
  | extendWithin object cids bytes => exact h.extendWithin object cids bytes
  | admitChunk cid bytes =>
      show Balanced _ (allowed ++ []) _
      rw [List.append_nil]
      exact h.admitted
  | extend cids =>
      exact h.idle rfl (fun _ => rfl) (foldl_extend_budgets cids plan)
  | recordProviders a providers fallback ledger observations threshold =>
      refine h.idle rfl (fun _ => rfl) ?_
      simp only [FetchPlan.call, recordProviders]
      split <;> rfl
  | nextRequests => exact h.idle rfl (fun _ => rfl) (issue_budgets _ plan)
  | recordReceived cid =>
      refine h.idle rfl (fun _ => rfl) ?_
      simp only [FetchPlan.call, recordReceived]
      split <;> rfl
  | recordFailed cid =>
      refine h.idle rfl (fun _ => rfl) ?_
      simp only [FetchPlan.call, recordFailed]
      split <;> rfl

/-- A run of calls. -/
theorem Balanced.run {allowed : List ℕ} {charged : ℕ → ℕ}
    (h : Balanced plan allowed charged) (calls : List Call) :
    Balanced (plan.run calls) (allowed ++ allowances calls)
      fun k => charged k + plan.chargedTo k calls := by
  induction calls generalizing plan allowed charged with
  | nil =>
      rw [allowances, List.flatMap_nil, List.append_nil]
      exact h.congr rfl fun _ => rfl
  | cons c calls ih =>
      have hrest := ih (h.call c)
      rw [List.append_assoc] at hrest
      rw [allowances, List.flatMap_cons]
      exact hrest.congr rfl fun k => (Nat.add_assoc _ _ _).symm

theorem balanced_new (cids : List Cid) (concurrency : ℕ) :
    Balanced (new cids concurrency) [] fun _ => 0 := by
  have hnone : (new cids concurrency).budgets = [] :=
    foldl_extend_budgets cids _
  refine ⟨by rw [hnone, List.length_nil, List.length_nil], fun k b hb => ?_,
    fun _ _ => rfl⟩
  rw [hnone] at hb
  cases hb

/-! ## What is given up on -/

/-- Only chunks that nobody with room wants are given up on for budgets. -/
def Settled (plan : FetchPlan) : Prop :=
  ∀ cid : Cid, plan.chunks[cid]? = some .overBudget → plan.Unwanted cid

theorem Settled.put (h : Settled plan) {t : ChunkState} (inflight : ℕ)
    (ht : t = .overBudget → plan.Unwanted cid) :
    Settled (plan.put cid t inflight) := by
  intro a ha
  rw [FetchPlan.put, BTreeMap.getElem?_insert_ite] at ha
  split at ha
  · next hca =>
      rw [Option.some.injEq] at ha
      exact hca ▸ ht ha
  · exact h a ha

theorem Settled.want (h : Settled plan) (cid : Cid) :
    Settled (plan.want cid) := by
  unfold FetchPlan.want
  split
  · exact h.put plan.inflight nofun
  · exact h.put plan.inflight nofun
  · exact h

theorem want_unbudgeted (plan : FetchPlan) (cid : Cid) :
    (plan.want cid).unbudgeted = plan.unbudgeted := by
  unfold FetchPlan.want
  split <;> rfl

theorem Settled.extend (h : Settled plan) (cids : List Cid) :
    Settled (plan.extend cids) := by
  unfold FetchPlan.extend
  induction cids generalizing plan with
  | nil => exact h
  | cons cid cids ih =>
      rw [List.foldl_cons]
      refine ih fun a ha => ?_
      -- the chunk asked for is not given up on, so it is another one
      have hne : cid ≠ a := fun heq =>
        want_not_overBudget _ cid a (.inl heq) ha
      have hold : plan.chunks[a]? = some .overBudget := by
        by_contra hnot
        exact want_not_overBudget
          { plan with unbudgeted := plan.unbudgeted.insert cid } cid a
          (.inr hnot) ha
      obtain ⟨hfree, hall⟩ := h a hold
      constructor
      · rw [want_unbudgeted, ← Bool.not_eq_true,
          Std.ExtTreeSet.contains_iff_mem, BTreeSet.mem_insert_iff, not_or]
        rw [← Bool.not_eq_true, Std.ExtTreeSet.contains_iff_mem] at hfree
        exact ⟨hne, hfree⟩
      · rw [want_budgets]
        exact hall

theorem Settled.extendWithin (h : Settled plan) (object : Cid)
    (cids : List Cid) (bytes : ℕ) :
    Settled (plan.extendWithin object cids bytes) := by
  have hwanted : ∀ (more : List Cid) (plan : FetchPlan), Settled plan →
      Settled (more.foldl FetchPlan.want plan) := by
    intro more
    induction more with
    | nil => exact fun _ hplan => hplan
    | cons cid more ih => exact fun plan hplan => ih _ (hplan.want cid)
  intro a ha
  obtain ⟨hfree, hall⟩ := hwanted _ plan h a ha
  refine ⟨hfree, fun b hb hcontains => ?_⟩
  rcases List.mem_append.1 hb with hb | hb
  · exact hall b hb hcontains
  · -- the new budget's chunks were all asked for
    rw [List.mem_singleton.1 hb] at hcontains
    refine absurd ha (foldl_want_not_overBudget _ plan (.inl ?_))
    exact Std.ExtTreeSet.mem_toList.2
      (Std.ExtTreeSet.contains_iff_mem.1 hcontains)

theorem Settled.issue (h : Settled plan) (order : List Cid) :
    Settled (issue order plan).2 := by
  induction order generalizing plan with
  | nil => exact h
  | cons cid rest ih =>
      unfold FetchPlan.issue
      split
      · exact h
      · split
        · exact ih (h.put (plan.inflight + 1) nofun)
        · exact ih h

/-- A charge runs budgets out and takes nothing back. -/
theorem Settled.charged (h : Settled plan) (cid : Cid) (bytes : ℕ) :
    Settled { plan with
      budgets := plan.budgets.map fun b => b.charge cid bytes } := by
  intro a ha
  obtain ⟨hfree, hall⟩ := h a ha
  refine ⟨hfree, fun b hb hcontains => ?_⟩
  obtain ⟨old, hold, rfl⟩ := List.mem_map.1 hb
  rw [Budget.charge_chunks] at hcontains
  have hexceeded := hall old hold hcontains
  unfold Budget.charge Budget.takesPart
  rw [hexceeded]
  exact hexceeded

theorem Settled.abandonExhausted (h : Settled plan) :
    Settled plan.abandonExhaustedBudgets := by
  have hfold : ∀ (doomed : List Cid) (plan : FetchPlan), Settled plan →
      (∀ cid ∈ doomed, plan.Unwanted cid) →
      Settled { plan with chunks := doomed.foldl abandon plan.chunks } := by
    intro doomed
    induction doomed with
    | nil => exact fun _ hplan _ => hplan
    | cons cid doomed ih =>
        intro plan hplan hdoomed
        refine ih { plan with chunks := abandon plan.chunks cid } ?_
          fun a ha => hdoomed a (List.mem_cons_of_mem _ ha)
        have hput := hplan.put (t := .overBudget) plan.inflight
          fun _ => hdoomed cid List.mem_cons_self
        unfold abandon
        split
        · exact hput
        · exact hput
        · exact hplan
  refine hfold _ plan h fun cid hcid => ?_
  rw [Std.ExtTreeSet.mem_toList, Std.ExtTreeSet.mem_ofList,
    List.contains_eq_mem, decide_eq_true_eq, List.mem_filter] at hcid
  exact unwanted_of_doomed hcid.2

theorem Settled.admitted (h : Settled plan) (cid : Cid) (bytes : ℕ) :
    Settled (plan.admitChunk cid bytes).2 := by
  by_cases hflight : ∃ cs n, plan.chunks[cid]? = some (.inFlight cs n)
  · obtain ⟨cs, n, hs⟩ := hflight
    have hafter : Settled (plan.afterCharge cid bytes) := by
      unfold afterCharge
      simp only
      split
      · exact (h.charged cid bytes).abandonExhausted
      · exact h.charged cid bytes
    rw [admit_inFlight bytes hs]
    split
    · exact hafter
    · next hroom =>
        exact hafter.put _ fun _ =>
          unwanted_of_no_room (Bool.eq_false_iff.2 hroom)
  · rw [admit_not_inFlight bytes fun cs n hs => hflight ⟨cs, n, hs⟩]
    exact h

/-- One call. -/
theorem Settled.call (h : Settled plan) (c : Call) :
    Settled (plan.call c).2 := by
  cases c with
  | extend cids => exact h.extend cids
  | extendWithin object cids bytes => exact h.extendWithin object cids bytes
  | nextRequests => exact h.issue _
  | admitChunk cid bytes => exact h.admitted cid bytes
  | recordProviders a providers fallback ledger observations threshold =>
      simp only [FetchPlan.call, recordProviders]
      split
      · refine h.put plan.inflight fun heq => ?_
        split at heq <;> cases heq
      · exact h
  | recordReceived cid =>
      simp only [FetchPlan.call, recordReceived]
      split
      · exact h.put _ nofun
      · exact h
  | recordFailed cid =>
      simp only [FetchPlan.call, recordFailed]
      split
      · refine h.put _ fun heq => ?_
        split at heq
        · next hdoomed => exact unwanted_of_doomed hdoomed
        · split at heq <;> cases heq
      · exact h

theorem Settled.run (h : Settled plan) (calls : List Call) :
    Settled (plan.run calls) := by
  induction calls generalizing plan with
  | nil => exact h
  | cons c calls ih => exact ih (h.call c)

theorem settled_new (cids : List Cid) (concurrency : ℕ) :
    Settled (new cids concurrency) := by
  refine Settled.extend (fun cid hcid => ?_) cids
  simp at hcid

/-- A chunk in flight that is kept is wanted without a budget, or a budget
with room is charged for it. -/
theorem kept_because {cs : List PerNetworkIdentityId} {n : UInt32}
    (hflight : plan.chunks[cid]? = some (.inFlight cs n))
    (hkept : (plan.admitChunk cid bytes).1 = true) :
    cid ∈ plan.unbudgeted ∨ ∃ k b, plan.budgets[k]? = some b ∧
      cid ∈ b.chunks ∧ b.exceeded = false ∧ bytes ≤ b.remaining ∧
      plan.charges k (.admitChunk cid bytes) = bytes := by
  rw [admit_inFlight bytes hflight] at hkept
  split at hkept
  · next hroom =>
      unfold room at hroom
      rw [Bool.or_eq_true, Std.ExtTreeSet.contains_iff_mem, List.any_eq_true]
        at hroom
      rcases hroom with hfree | ⟨b, hb, hroom⟩
      · exact Or.inl hfree
      · obtain ⟨k, hk⟩ := List.mem_iff_getElem?.1 hb
        have hcharges : plan.charges k (.admitChunk cid bytes) = bytes := by
          rw [charges, hflight, hk, Option.any_some, Option.any_some, hroom]
          rfl
        simp only [Budget.hasRoom, Budget.takesPart, Bool.and_eq_true,
          Bool.not_eq_true', decide_eq_true_eq,
          Std.ExtTreeSet.contains_iff_mem] at hroom
        obtain ⟨⟨hopen, hchunk⟩, hle⟩ := hroom
        exact Or.inr ⟨k, b, hk, hchunk, hopen, hle, hcharges⟩
  · cases hkept

/-- A lying manifest costs only its declared size. In every run the bytes
charged to a budget and what it has left make up its allowance, so they never
exceed it; a chunk in flight that is kept is wanted without a budget, or a
budget with room pays for it; and a chunk is over budget only while nobody
wants it without a budget or under one that has not run out. -/
theorem budgets_bound (cids : List Cid) (concurrency : ℕ) (calls : List Call) :
    let start := FetchPlan.new cids concurrency
    let plan := start.run calls
    (plan.budgets.length = (allowances calls).length ∧
      ∀ k allowance, (allowances calls)[k]? = some allowance →
        start.chargedTo k calls ≤ allowance ∧
        ∃ b, plan.budgets[k]? = some b ∧
          b.remaining + start.chargedTo k calls = allowance) ∧
    (∀ (cid : Cid) (bytes : ℕ) (cs : List PerNetworkIdentityId) (n : UInt32),
      plan.chunks[cid]? = some (.inFlight cs n) →
      (plan.admitChunk cid bytes).1 = true →
      cid ∈ plan.unbudgeted ∨ ∃ k b, plan.budgets[k]? = some b ∧
        cid ∈ b.chunks ∧ b.exceeded = false ∧ bytes ≤ b.remaining ∧
        plan.charges k (.admitChunk cid bytes) = bytes) ∧
    ∀ cid : Cid, plan.chunks[cid]? = some .overBudget →
      cid ∉ plan.unbudgeted ∧
        ∀ b ∈ plan.budgets, cid ∈ b.chunks → b.exceeded = true := by
  intro start plan
  have hbalanced := (balanced_new cids concurrency).run calls
  rw [List.nil_append] at hbalanced
  refine ⟨⟨hbalanced.count, fun k allowance hk => ?_⟩,
    fun _ _ _ _ => kept_because, fun cid hcid => ?_⟩
  · have hlt : k < plan.budgets.length := by
      rw [hbalanced.count]
      exact (List.getElem?_eq_some_iff.1 hk).1
    have hb := List.getElem?_eq_getElem hlt
    have hsum := hbalanced.holds k _ hb
    rw [hk, Option.some.injEq, Nat.zero_add] at hsum
    have hle : start.chargedTo k calls ≤ allowance := by
      rw [hsum]
      exact Nat.le_add_left _ _
    exact ⟨hle, _, hb, hsum.symm⟩
  · obtain ⟨hfree, hall⟩ := (settled_new cids concurrency).run calls cid hcid
    rw [← Bool.not_eq_true, Std.ExtTreeSet.contains_iff_mem] at hfree
    exact ⟨hfree, fun b hb hmem =>
      hall b hb (Std.ExtTreeSet.contains_iff_mem.2 hmem)⟩

end FetchPlan

end Intranet
