import Intranet.Proofs.Fetch
import Intranet.Proofs.Object

/-!
# An honest object never runs out

A budget that covers what is still owed to it cannot run out: every chunk that
arrives is charged what it owes and is done from then on, so the allowance and
the debt shrink together. A chunk that such a budget wants is never given up
on, whatever becomes of the other budgets it belongs to. The bound an honest
manifest declares covers its chunks, so its object survives every fetch it
takes part in.
-/

namespace Intranet

theorem Budget.charge_chunks (b : Budget) (cid : Cid) (bytes : ℕ) :
    (b.charge cid bytes).chunks = b.chunks := by
  unfold Budget.charge
  split
  · rfl
  · split <;> rfl

theorem Budget.charge_object (b : Budget) (cid : Cid) (bytes : ℕ) :
    (b.charge cid bytes).object = b.object := by
  unfold Budget.charge
  split
  · rfl
  · split <;> rfl

namespace FetchPlan

open ChunkState

theorem Event.isCharged_of_isWanted {e : Event} (h : e.isWanted = true) :
    e.isCharged = false := by
  cases e <;> first | rfl | cases h

/-! ## What moves leave alone -/

/-- A chunk that is done stays done. -/
theorem Move.done {plan next : FetchPlan} {es : List Event}
    (h : Move plan es next) {a : Cid} (ha : plan.chunks[a]? = some .done) :
    next.chunks[a]? = some .done := by
  have hput : ∀ (cid : Cid) (t : ChunkState) (inflight : ℕ),
      plan.chunks[cid]? ≠ some .done →
      (plan.put cid t inflight).chunks[a]? = some .done := by
    intro cid t inflight hcid
    rw [put, BTreeMap.getElem?_insert_ite, if_neg, ha]
    intro hca
    rw [hca] at hcid
    exact hcid ha
  cases h with
  | wanted cid hs =>
      refine hput cid _ _ ?_
      rcases hs with hs | hs <;> simp [hs]
  | answered cid ordered holders hs => exact hput cid _ _ (by simp [hs])
  | issued cid source rest holders hs => exact hput cid _ _ (by simp [hs])
  | abandoned cid s hs hpending =>
      refine hput cid _ _ ?_
      rw [hs]
      intro heq
      cases heq
      cases hpending
  | landed cid cs n t hs => exact hput cid _ _ (by simp [hs])
  | freed => exact ha
  | budgeted => exact ha
  | charged => exact ha

/-- A chunk that somebody with room wants is not given up on. -/
theorem Move.not_overBudget {plan next : FetchPlan} {es : List Event}
    (h : Move plan es next) {a : Cid} (hwanted : ¬ plan.Unwanted a)
    (ha : plan.chunks[a]? ≠ some .overBudget) :
    next.chunks[a]? ≠ some .overBudget := by
  have hput : ∀ (cid : Cid) (t : ChunkState) (inflight : ℕ),
      (cid = a → t ≠ .overBudget) →
      (plan.put cid t inflight).chunks[a]? ≠ some .overBudget := by
    intro cid t inflight ht
    rw [put, BTreeMap.getElem?_insert_ite]
    split
    · next hca => simpa using ht hca
    · exact ha
  cases h with
  | wanted cid hs => exact hput cid _ _ (fun _ => ChunkState.noConfusion)
  | answered cid ordered holders hs =>
      refine hput cid _ _ fun _ => ?_
      unfold answerState
      split <;> exact ChunkState.noConfusion
  | issued cid source rest holders hs =>
      exact hput cid _ _ (fun _ => ChunkState.noConfusion)
  | abandoned cid s hs hpending hunwanted =>
      exact hput cid _ _ fun hca => absurd (hca ▸ hunwanted) hwanted
  | landed cid cs n t hs ht =>
      refine hput cid _ _ fun hca heq => ?_
      rcases ht with rfl | ⟨-, hunwanted⟩ | ⟨rfl, -⟩ | ⟨rfl, -⟩
      · cases heq
      · exact hwanted (hca ▸ hunwanted)
      · cases heq
      · cases heq
  | freed => exact ha
  | budgeted => exact ha
  | charged => exact ha

/-- Only a charge changes a budget that is there. -/
theorem Move.budget {plan next : FetchPlan} {es : List Event}
    (h : Move plan es next) (hes : ∀ e ∈ es, e.isCharged = false) {k : ℕ}
    {b : Budget} (hb : plan.budgets[k]? = some b) :
    next.budgets[k]? = some b := by
  cases h with
  | budgeted new =>
      rw [List.getElem?_append_left (List.getElem?_eq_some_iff.1 hb).1, hb]
  | charged cid bytes =>
      exact Bool.noConfusion (hes (.charged cid bytes)
        (List.mem_singleton_self _))
  | _ => exact hb

/-! ## A budget that covers its chunks -/

/-- What a chunk may still cost: nothing once it is done. -/
def owed (size : Cid → ℕ) (plan : FetchPlan) (cid : Cid) : ℕ :=
  if plan.chunks[cid]? = some .done then 0 else size cid

/-- The debt of a budget. -/
def debt (size : Cid → ℕ) (plan : FetchPlan) (b : Budget) : ℕ :=
  (b.chunks.toList.map (plan.owed size)).sum

/-- The budget at `k` is open and covers its debt, up to what has been paid
already for a chunk that is not done yet, and none of its chunks has been
given up on. -/
structure Covered (size : Cid → ℕ) (k paid : ℕ) (plan : FetchPlan)
    (b : Budget) : Prop where
  held : plan.budgets[k]? = some b
  intact : b.exceeded = false
  covers : plan.debt size b ≤ b.remaining + paid
  wanted : ∀ cid ∈ b.chunks, plan.chunks[cid]? ≠ some .overBudget

variable {size : Cid → ℕ} {k paid : ℕ} {plan next : FetchPlan} {b : Budget}
  {es : List Event}

theorem Covered.not_unwanted (h : Covered size k paid plan b) {cid : Cid}
    (hcid : cid ∈ b.chunks) : ¬ plan.Unwanted cid := by
  intro hunwanted
  have hexceeded := hunwanted.2 b (List.mem_of_getElem? h.held)
    (Std.ExtTreeSet.contains_iff_mem.2 hcid)
  rw [h.intact] at hexceeded
  cases hexceeded

/-- No move adds to what a chunk may cost. -/
theorem owed_le (h : Moves plan es next) (cid : Cid) :
    next.owed size cid ≤ plan.owed size cid := by
  unfold owed
  by_cases hdone : plan.chunks[cid]? = some .done
  · have hnext := h.invariant (P := fun p => p.chunks[cid]? = some .done)
      (fun _ _ _ hp hmove => hmove.done hp) hdone
    rw [if_pos hdone, if_pos hnext]
  · rw [if_neg hdone]
    split
    · exact Nat.zero_le _
    · exact le_rfl

/-- Moves that charge nothing keep a budget covered. -/
theorem Covered.moves (h : Covered size k paid plan b)
    (hmoves : Moves plan es next) (hes : ∀ e ∈ es, e.isCharged = false) :
    Covered size k paid next b := by
  induction hmoves with
  | nil => exact h
  | cons hmove _ ih =>
      have hfirst := fun e he => hes e (List.mem_append_left _ he)
      refine ih ?_ fun e he => hes e (List.mem_append_right _ he)
      exact ⟨hmove.budget hfirst h.held, h.intact,
        (List.sum_le_sum fun cid _ => owed_le (.single hmove) cid).trans h.covers,
        fun cid hcid => hmove.not_overBudget (h.not_unwanted hcid)
          (h.wanted cid hcid)⟩

/-- What a charge for `cid` takes from a budget with room. -/
def share (b : Budget) (cid : Cid) (bytes : ℕ) : ℕ :=
  if cid ∈ b.chunks then bytes else 0

/-- A budget that has room pays for the chunk it is charged for. -/
theorem Covered.charged (h : Covered size k paid plan b) (cid : Cid)
    (bytes : ℕ) (hroom : cid ∈ b.chunks → bytes ≤ b.remaining) :
    Covered size k (paid + share b cid bytes)
      { plan with budgets := plan.budgets.map fun b => b.charge cid bytes }
      (b.charge cid bytes) := by
  have hheld : (plan.budgets.map fun b => b.charge cid bytes)[k]? =
      some (b.charge cid bytes) := by
    rw [List.getElem?_map, h.held]
    rfl
  by_cases hcid : cid ∈ b.chunks
  · have hcharge : b.charge cid bytes =
        { b with remaining := b.remaining - bytes } := by
      have htakes : b.takesPart cid = true := by
        simp [Budget.takesPart, h.intact, hcid]
      unfold Budget.charge
      rw [htakes]
      simp [hroom hcid]
    rw [hcharge] at hheld ⊢
    refine ⟨hheld, h.intact, ?_, h.wanted⟩
    have hcovers := h.covers
    have hle := hroom hcid
    rw [share, if_pos hcid]
    show plan.debt size b ≤ b.remaining - bytes + (paid + bytes)
    omega
  · have hcharge : b.charge cid bytes = b := by
      have hcontains : b.chunks.contains cid = false :=
        Bool.eq_false_iff.2 fun h => hcid (Std.ExtTreeSet.contains_iff_mem.1 h)
      have htakes : b.takesPart cid = false := by
        rw [Budget.takesPart, hcontains, Bool.and_false]
      unfold Budget.charge
      rw [htakes]
      rfl
    rw [hcharge] at hheld ⊢
    exact ⟨hheld, h.intact, by rw [share, if_neg hcid]; exact h.covers, h.wanted⟩

theorem Covered.afterCharge (h : Covered size k paid plan b) (cid : Cid)
    (bytes : ℕ) (hroom : cid ∈ b.chunks → bytes ≤ b.remaining) :
    Covered size k (paid + share b cid bytes)
      (plan.afterCharge cid bytes) (b.charge cid bytes) := by
  have hcharged := h.charged cid bytes hroom
  unfold FetchPlan.afterCharge
  simp only
  split
  · exact hcharged.moves (moves_abandonExhaustedBudgets _) (by simp)
  · exact hcharged

/-- The debt of the chunks that are not done includes each of them. -/
theorem size_le_debt {cid : Cid} (hcid : cid ∈ b.chunks)
    (hdone : plan.chunks[cid]? ≠ some .done) :
    size cid ≤ plan.debt size b := by
  have hmem : plan.owed size cid ∈ b.chunks.toList.map (plan.owed size) :=
    List.mem_map_of_mem (Std.ExtTreeSet.mem_toList.2 hcid)
  have hle := List.single_le_sum (fun _ _ => Nat.zero_le _) _ hmem
  rw [owed, if_neg hdone] at hle
  exact hle

/-- A chunk that arrives settles what was paid for it. -/
theorem Covered.received {cid : Cid} (hcid : cid ∈ b.chunks)
    (h : Covered size k (size cid) plan b) {cs : List PerNetworkIdentityId}
    {n : UInt32} (hflight : plan.chunks[cid]? = some (.inFlight cs n)) :
    Covered size k 0 (plan.recordReceived cid) b := by
  have hmoves := h.moves (moves_recordReceived plan cid) (by simp)
  refine ⟨hmoves.held, hmoves.intact, ?_, hmoves.wanted⟩
  have hreceived : (plan.recordReceived cid).chunks[cid]? = some .done := by
    unfold recordReceived
    rw [hflight]
    simp only
    rw [BTreeMap.getElem?_insert_ite, if_pos rfl]
  have hnew : (plan.recordReceived cid).owed size cid = 0 := if_pos hreceived
  have hold : plan.owed size cid = size cid := if_neg (by simp [hflight])
  have hpaid := h.covers
  have hle : ∀ a, (plan.recordReceived cid).owed size a ≤ plan.owed size a := by
    intro a
    exact owed_le (moves_recordReceived plan cid) a
  unfold debt at hpaid ⊢
  obtain ⟨before, after, hsplit⟩ :=
    List.append_of_mem (Std.ExtTreeSet.mem_toList.2 hcid)
  have hbefore := List.sum_le_sum (l := before) fun a _ => hle a
  have hafter := List.sum_le_sum (l := after) fun a _ => hle a
  rw [hsplit, List.map_append, List.sum_append, List.map_cons, List.sum_cons]
    at hpaid ⊢
  rw [hold] at hpaid
  rw [hnew]
  omega

/-- A budget that covers its debt has room for a chunk it waits for. -/
theorem Covered.room (h : Covered size k 0 plan b) {cid : Cid}
    (hcid : cid ∈ b.chunks) (hdone : plan.chunks[cid]? ≠ some .done) :
    size cid ≤ b.remaining :=
  (size_le_debt hcid hdone).trans h.covers

theorem Covered.has_room (h : Covered size k paid plan b) {cid : Cid}
    (hcid : cid ∈ b.chunks) {bytes : ℕ} (hle : bytes ≤ b.remaining) :
    plan.room cid bytes = true := by
  have hroom : b.hasRoom cid bytes = true := by
    simp [Budget.hasRoom, Budget.takesPart, h.intact, hcid, hle]
  unfold FetchPlan.room
  rw [Bool.or_eq_true]
  exact .inr (List.any_eq_true.2 ⟨b, List.mem_of_getElem? h.held, hroom⟩)

/-! ## Fetching -/

/-- One step of a fetch. What arrives has verified as the chunk it was asked
for as and is among the byte strings in play; a chunk the plan keeps is
recorded as received, and for one it refuses nothing further is recorded. -/
inductive Fetching (C : Crypto) (inPlay : Set (List UInt8)) :
    FetchPlan → FetchPlan → Prop
  | call {plan : FetchPlan} (c : Call)
      (h : ∀ cid bytes, c ≠ .admitChunk cid bytes) :
      Fetching C inPlay plan (plan.call c).2
  | kept {plan : FetchPlan} (cid : Cid) (blob : List UInt8)
      (hplay : blob ∈ inPlay) (hverifies : cid.verifies C blob = true)
      (hkept : (plan.admitChunk cid blob.length).1 = true) :
      Fetching C inPlay plan
        ((plan.admitChunk cid blob.length).2.recordReceived cid)
  | refused {plan : FetchPlan} (cid : Cid) (blob : List UInt8)
      (hplay : blob ∈ inPlay) (hverifies : cid.verifies C blob = true)
      (hrefused : (plan.admitChunk cid blob.length).1 = false) :
      Fetching C inPlay plan (plan.admitChunk cid blob.length).2

/-- A call other than `admitChunk` charges nothing. -/
theorem Covered.call (h : Covered size k paid plan b) {c : Call}
    (hc : ∀ cid bytes, c ≠ .admitChunk cid bytes) :
    Covered size k paid (plan.call c).2 b := by
  cases c with
  | extend cids =>
      obtain ⟨es, hes, hmoves⟩ := moves_extend plan cids
      exact h.moves hmoves fun e he => Event.isCharged_of_isWanted (hes e he)
  | extendWithin object cids bytes =>
      obtain ⟨es, hes, hmoves⟩ := moves_extendWithin plan object cids bytes
      exact h.moves hmoves fun e he => Event.isCharged_of_isWanted (hes e he)
  | recordProviders a providers fallback ledger observations threshold =>
      refine h.moves (moves_recordProviders plan a providers fallback ledger
        observations threshold) fun e he => ?_
      split at he
      · rw [List.mem_singleton.1 he]
        rfl
      · cases he
  | nextRequests =>
      refine h.moves (moves_issue plan.requestOrder plan) fun e he => ?_
      obtain ⟨r, -, rfl⟩ := List.mem_map.1 he
      rfl
  | admitChunk cid bytes => exact absurd rfl (hc cid bytes)
  | recordReceived cid => exact h.moves (moves_recordReceived plan cid) (by simp)
  | recordFailed cid => exact h.moves (moves_recordFailed plan cid) (by simp)

section Arrivals

variable {C : Crypto} {inPlay : Set (List UInt8)}
  (hsize : ∀ cid blob, blob ∈ inPlay → cid.verifies C blob = true →
    cid ∈ b.chunks → blob.length = size cid)

include hsize

/-- A chunk of the budget that arrives is kept and settles its share. -/
theorem Covered.arrives (h : Covered size k 0 plan b) {cid : Cid}
    {blob : List UInt8} (hplay : blob ∈ inPlay)
    (hverifies : cid.verifies C blob = true) (hcid : cid ∈ b.chunks)
    {cs : List PerNetworkIdentityId} {n : UInt32}
    (hflight : plan.chunks[cid]? = some (.inFlight cs n)) :
    plan.admitChunk cid blob.length = (true, plan.afterCharge cid blob.length) ∧
      Covered size k 0
        ((plan.afterCharge cid blob.length).recordReceived cid)
        (b.charge cid blob.length) := by
  have hlen := hsize cid blob hplay hverifies hcid
  have hle : blob.length ≤ b.remaining := by
    rw [hlen]
    exact h.room hcid (by simp [hflight])
  constructor
  · rw [admit_inFlight _ hflight, if_pos (h.has_room hcid hle)]
  · have hcharged := h.afterCharge cid blob.length fun _ => hle
    rw [share, if_pos hcid, Nat.zero_add, hlen] at hcharged
    rw [hlen]
    refine hcharged.received ?_ (afterCharge_inFlight cid _ hflight)
    rw [Budget.charge_chunks]
    exact hcid

/-- Whatever arrives, a covered budget stays covered. -/
theorem Covered.fetching (h : Covered size k 0 plan b)
    (hstep : Fetching C inPlay plan next) :
    ∃ b', b'.chunks = b.chunks ∧ b'.object = b.object ∧
      Covered size k 0 next b' := by
  -- a chunk of other objects is charged to their budgets alone
  have hforeign : ∀ (cid : Cid) (bytes : ℕ), cid ∉ b.chunks →
      Covered size k 0 (plan.afterCharge cid bytes) (b.charge cid bytes) := by
    intro cid bytes hcid
    have hcharged := h.afterCharge cid bytes fun hmem => absurd hmem hcid
    rwa [share, if_neg hcid] at hcharged
  cases hstep with
  | call c hc => exact ⟨b, rfl, rfl, h.call hc⟩
  | kept cid blob hplay hverifies hkept =>
      by_cases hflight : ∃ cs n, plan.chunks[cid]? = some (.inFlight cs n)
      · obtain ⟨cs, n, hflight⟩ := hflight
        refine ⟨b.charge cid blob.length, b.charge_chunks .., b.charge_object ..,
          ?_⟩
        by_cases hcid : cid ∈ b.chunks
        · obtain ⟨hadmitted, hcovered⟩ :=
            h.arrives hsize hplay hverifies hcid hflight
          rw [hadmitted]
          exact hcovered
        · rw [admit_inFlight _ hflight] at hkept ⊢
          split at hkept
          · next hroom =>
              rw [if_pos hroom]
              exact (hforeign cid _ hcid).moves (moves_recordReceived _ cid)
                (by simp)
          · cases hkept
      · rw [admit_not_inFlight _ fun cs n hs => hflight ⟨cs, n, hs⟩]
        exact ⟨b, rfl, rfl, h.moves (moves_recordReceived plan cid) (by simp)⟩
  | refused cid blob hplay hverifies hrefused =>
      by_cases hflight : ∃ cs n, plan.chunks[cid]? = some (.inFlight cs n)
      · obtain ⟨cs, n, hflight⟩ := hflight
        refine ⟨b.charge cid blob.length, b.charge_chunks .., b.charge_object ..,
          ?_⟩
        by_cases hcid : cid ∈ b.chunks
        · rw [(h.arrives hsize hplay hverifies hcid hflight).1] at hrefused
          cases hrefused
        · rw [admit_inFlight _ hflight] at hrefused ⊢
          split at hrefused
          · cases hrefused
          · next hroom =>
              rw [if_neg hroom]
              refine (hforeign cid _ hcid).moves (.single (.landed cid cs n _
                (afterCharge_inFlight cid _ hflight) (.inr (.inl ⟨rfl, ?_⟩)))) (by simp)
              exact unwanted_of_no_room (by simpa using hroom)
      · rw [admit_not_inFlight _ fun cs n hs => hflight ⟨cs, n, hs⟩] at hrefused
        cases hrefused

omit hsize in
/-- A whole fetch keeps a covered budget covered. -/
theorem Covered.fetch
    (hsize : ∀ cid blob, blob ∈ inPlay → cid.verifies C blob = true →
      cid ∈ b.chunks → blob.length = size cid)
    (h : Covered size k 0 plan b)
    (hrun : Relation.ReflTransGen (Fetching C inPlay) plan next) :
    ∃ b', b'.chunks = b.chunks ∧ b'.object = b.object ∧
      Covered size k 0 next b' := by
  induction hrun with
  | refl => exact ⟨b, rfl, rfl, h⟩
  | tail _ hstep ih =>
      obtain ⟨b', hchunks, hobject, hcovered⟩ := ih
      obtain ⟨b'', hchunks', hobject', hcovered'⟩ := hcovered.fetching
        (by rw [hchunks]; exact hsize) hstep
      exact ⟨b'', hchunks'.trans hchunks, hobject'.trans hobject, hcovered'⟩

end Arrivals

/-! ## Where a budget starts -/

theorem want_budgets (plan : FetchPlan) (cid : Cid) :
    (plan.want cid).budgets = plan.budgets := by
  unfold want
  split <;> rfl

theorem foldl_want_budgets (cids : List Cid) (plan : FetchPlan) :
    (cids.foldl want plan).budgets = plan.budgets := by
  induction cids generalizing plan with
  | nil => rfl
  | cons cid cids ih => rw [List.foldl_cons, ih, want_budgets]

/-- Wanting a chunk takes it back from the abandoned, and abandons none. -/
theorem want_not_overBudget (plan : FetchPlan) (cid a : Cid)
    (ha : cid = a ∨ plan.chunks[a]? ≠ some .overBudget) :
    (plan.want cid).chunks[a]? ≠ some .overBudget := by
  have hput : (plan.chunks.insert cid .awaitingProviders)[a]? ≠
      some ChunkState.overBudget := by
    rw [BTreeMap.getElem?_insert_ite]
    split
    · simp
    · next hne => exact ha.resolve_left hne
  unfold want
  split
  · exact hput
  · exact hput
  · next s hover hs =>
      intro heq
      rcases ha with rfl | ha
      · rw [hs] at heq
        cases heq
        exact hover rfl
      · exact ha heq

theorem foldl_want_not_overBudget (cids : List Cid) (plan : FetchPlan)
    {a : Cid} (ha : a ∈ cids ∨ plan.chunks[a]? ≠ some .overBudget) :
    (cids.foldl want plan).chunks[a]? ≠ some .overBudget := by
  induction cids generalizing plan with
  | nil => exact ha.resolve_left List.not_mem_nil
  | cons cid cids ih =>
      refine ih _ ?_
      rcases ha with ha | ha
      · rcases List.mem_cons.1 ha with rfl | ha
        · exact .inr (want_not_overBudget plan a a (.inl rfl))
        · exact .inl ha
      · exact .inr (want_not_overBudget plan cid a (.inr ha))

/-- A budget that allows for all of its chunks starts out covered. -/
theorem covered_extendWithin (size : Cid → ℕ) (plan : FetchPlan) (object : Cid)
    (cids : List Cid) (bytes : ℕ)
    (hbytes : ((Std.ExtTreeSet.ofList cids compare : BTreeSet Cid).toList.map
      size).sum ≤ bytes) :
    Covered size plan.budgets.length 0 (plan.extendWithin object cids bytes)
      ⟨object, Std.ExtTreeSet.ofList cids compare, bytes, false⟩ where
  held := by
    unfold extendWithin
    simp only
    rw [foldl_want_budgets, List.getElem?_append_right le_rfl, Nat.sub_self]
    rfl
  intact := rfl
  covers := by
    refine (List.sum_le_sum fun cid _ => ?_).trans hbytes
    unfold owed
    split
    · exact Nat.zero_le _
    · exact le_rfl
  wanted := by
    intro cid hcid
    exact foldl_want_not_overBudget _ plan
      (.inl (Std.ExtTreeSet.mem_toList.2 hcid))

end FetchPlan

/-! ## An honest object -/

section Honest

variable {C : Crypto} {A : Aead} {cdc : FastCdc} {inPlay : Set (List UInt8)}
  {plaintext : List UInt8} {dek : Dek} {spec : ChunkSpec}

/-- Every chunk of an encoded object is addressed by its hash. -/
theorem cid_of_mem_encode {chunk : Cid × List UInt8}
    (hchunk : chunk ∈ (Object.encode C A cdc plaintext dek spec).chunks) :
    chunk.1 = Cid.of C chunk.2 := by
  obtain ⟨piece, -, rfl⟩ := List.mem_map.1 hchunk
  rfl

/-- The blobs of an object hold each of its chunks, when no two byte strings
in play have the same hash. -/
theorem blobs_encode (hfree : Set.InjOn C.hashBytes inPlay)
    (hchunks : ∀ chunk ∈ (Object.encode C A cdc plaintext dek spec).chunks,
      chunk.2 ∈ inPlay) {chunk : Cid × List UInt8}
    (hchunk : chunk ∈ (Object.encode C A cdc plaintext dek spec).chunks) :
    (Object.encode C A cdc plaintext dek spec).blobs[chunk.1]? =
      some chunk.2 := by
  refine foldl_insert_blobs (fun a ha b hb hab => ?_) ∅ hchunk
  refine hfree (hchunks a ha) (hchunks b hb) ?_
  rw [cid_of_mem_encode ha, cid_of_mem_encode hb] at hab
  exact congrArg Cid.hash hab

theorem decode_encode (hA : A.Lawful) (hcdc : cdc.Tiling)
    (hfree : Set.InjOn C.hashBytes inPlay)
    (hchunks : ∀ chunk ∈ (Object.encode C A cdc plaintext dek spec).chunks,
      chunk.2 ∈ inPlay) :
    Object.decode C A (Object.encode C A cdc plaintext dek spec).manifest
      (Object.encode C A cdc plaintext dek spec).blobs dek = .ok plaintext := by
  have hread := decodeChunks_sealed hA (Chunk.split cdc plaintext spec)
    (fun piece hpiece => blobs_encode hfree hchunks (List.mem_map_of_mem hpiece))
    []
  rw [hcdc.flatten_split, List.nil_append] at hread
  have hmanifest : (Object.encode C A cdc plaintext dek spec).manifest.chunks =
      (Chunk.split cdc plaintext spec).map fun piece =>
        (Object.sealPiece C A dek piece).1 :=
    List.map_map
  unfold Object.decode
  rw [hmanifest, hread]
  exact if_neg (not_not.2 rfl)

/-- The distinct chunks of an object take no more than its manifest's bound,
if the bytes of all of them can be counted. -/
theorem total_blobs_le_bound (hA : A.Lawful) (hcdc : cdc.Tiling)
    (hcounted : (Object.encode C A cdc plaintext dek spec).storedLen <
      UInt64.size) :
    BTreeMap.total List.length (Object.encode C A cdc plaintext dek spec).blobs ≤
      (Object.encode C A cdc plaintext dek spec).manifest.ciphertextBound := by
  have htotal := total_foldl_insert_le
    (Object.encode C A cdc plaintext dek spec).chunks ∅
  have hstored := storedLen_encode (C := C) hA hcdc plaintext dek spec
  have hlen : (Object.encode C A cdc plaintext dek spec).manifest.plaintextLen =
      plaintext.length := rfl
  have hempty : BTreeMap.total List.length (∅ : BTreeMap Cid (List UInt8)) = 0 :=
    rfl
  have hsum : BTreeMap.total List.length
      (Object.encode C A cdc plaintext dek spec).blobs ≤
      (Object.encode C A cdc plaintext dek spec).storedLen := by
    rw [hempty, Nat.zero_add] at htotal
    exact htotal
  unfold Manifest.ciphertextBound
  omega

/-- An object is read back as it was, its distinct chunks stay within the
bound its manifest declares, and a fetch that was given that bound for it
never runs it out: whatever else is fetched beside it, under whatever budgets
and with whatever outcomes, its budget is not exceeded and none of its chunks
is given up on. -/
theorem honest_object_survives (C : Crypto) (A : Aead) (cdc : FastCdc)
    (hA : A.Lawful) (hcdc : cdc.Tiling) (plaintext : List UInt8) (dek : Dek)
    (spec : ChunkSpec) (inPlay : Set (List UInt8))
    (hfree : Set.InjOn C.hashBytes inPlay)
    (hchunks : ∀ chunk ∈ (Object.encode C A cdc plaintext dek spec).chunks,
      chunk.2 ∈ inPlay)
    (hcounted : (Object.encode C A cdc plaintext dek spec).storedLen <
      UInt64.size) :
    let o := Object.encode C A cdc plaintext dek spec
    Object.decode C A o.manifest o.blobs dek = .ok plaintext ∧
      BTreeMap.total List.length o.blobs ≤ o.manifest.ciphertextBound ∧
      ∀ (before : FetchPlan) (object : Cid) (after : FetchPlan),
        Relation.ReflTransGen (FetchPlan.Fetching C inPlay)
          (before.extendWithin object o.manifest.chunks
            o.manifest.ciphertextBound) after →
        (∃ b, after.budgets[before.budgets.length]? = some b ∧
          b.object = object ∧ b.exceeded = false) ∧
        ∀ cid ∈ o.manifest.chunks, after.chunks[cid]? ≠ some .overBudget := by
  intro o
  have hbound := total_blobs_le_bound (C := C) hA hcdc hcounted
  refine ⟨decode_encode hA hcdc hfree hchunks, hbound, ?_⟩
  intro before object after hrun
  let size : Cid → ℕ := fun cid => o.blobs[cid]?.elim 0 List.length
  have hcovered := FetchPlan.covered_extendWithin size before object
    o.manifest.chunks o.manifest.ciphertextBound
    ((BTreeMap.sum_lookup_le_total List.length o.blobs _
      ((BTreeSet.toList_pairwise _).imp ne_of_lt)).trans hbound)
  have hmem : ∀ cid, cid ∈ (Std.ExtTreeSet.ofList o.manifest.chunks compare :
      BTreeSet Cid) ↔ cid ∈ o.manifest.chunks := by
    intro cid
    rw [Std.ExtTreeSet.mem_ofList, List.contains_eq_mem, decide_eq_true_eq]
  -- what verifies as one of the object's chunks is that chunk
  have hsize : ∀ cid blob, blob ∈ inPlay → cid.verifies C blob = true →
      cid ∈ (Std.ExtTreeSet.ofList o.manifest.chunks compare : BTreeSet Cid) →
      blob.length = size cid := by
    intro cid blob hplay hverifies hcid
    obtain ⟨chunk, hchunk, rfl⟩ := List.mem_map.1 ((hmem cid).1 hcid)
    have hblob : blob = chunk.2 := by
      refine hfree hplay (hchunks chunk hchunk) ?_
      have hsame := of_decide_eq_true hverifies
      rw [cid_of_mem_encode hchunk] at hsame
      exact congrArg Cid.hash hsame
    have hheld := blobs_encode hfree hchunks hchunk
    show blob.length = o.blobs[chunk.1]?.elim 0 List.length
    rw [hheld, hblob]
    rfl
  obtain ⟨b, hb, hobject, hend⟩ := hcovered.fetch hsize hrun
  refine ⟨⟨b, hend.held, hobject, hend.intact⟩, fun cid hcid => ?_⟩
  exact hend.wanted cid (by rw [hb]; exact (hmem cid).2 hcid)

end Honest

/-- The one chunk of a three-byte object. -/
theorem honest_object_survives_sample :
    Object.decode Crypto.sample Sample.aead
      (Object.encode Crypto.sample Sample.aead Sample.shortCdc [1, 2, 3]
        Sample.dek (ChunkSpec.fromTarget 4096)).manifest
      (Object.encode Crypto.sample Sample.aead Sample.shortCdc [1, 2, 3]
        Sample.dek (ChunkSpec.fromTarget 4096)).blobs Sample.dek =
      .ok [1, 2, 3] :=
  (honest_object_survives Crypto.sample Sample.aead Sample.shortCdc
    Sample.aead_lawful Sample.shortCdc_tiling [1, 2, 3] Sample.dek
    (ChunkSpec.fromTarget 4096) {Sample.dek.sealChunk Sample.aead [1, 2, 3]}
    (Set.injOn_singleton _ _)
    (by
      intro chunk hchunk
      obtain ⟨piece, hpiece, rfl⟩ := List.mem_map.1 hchunk
      rw [List.mem_singleton.1 hpiece]
      rfl)
    (by decide)).1

end Intranet
