import Intranet.Lib.Machine
import Intranet.Ref.MediaLimits
import Intranet.Ref.Sample
import Intranet.Proofs.Time

/-!
# A media relay spends what time has earned it

The account of a guard: what it has authorized and what it still has never
exceed what it started with and what the refills earned. A refill earns for
the step its clock took forward since the refill before it, so the account is
kept against `advanced`, the sum of those steps. On a clock that never goes
back that sum is the time between the first refill and the last. On one that
does, the guard rebases on the earlier reading, and the way back up is earned
again.

The account is kept in thousandths of a byte, where the division of a refill
rounds nothing away from the bound.
-/

namespace Intranet

namespace MediaRelayGuard

/-! ## Calls and outcomes -/

/-- A call with its arguments. -/
inductive Call where
  | tryCarry (call : CallId) (participants : List PerNetworkIdentityId)
  | stopCarrying (call : CallId)
  | authorize (call : CallId) (sender : PerNetworkIdentityId)
      (recipient : Recipient) (frameBytes : UInt64)
      (selfId : PerNetworkIdentityId)
  | refill (now : Timestamp)

/-- What the caller gets back. -/
inductive Outcome where
  | carried (answer : Except MediaRelayDenied Unit)
  | stopped
  | authorized (answer : Except MediaRelayDenied FanOut)
  | refilled

def step (guard : MediaRelayGuard) : Call → Outcome × MediaRelayGuard
  | .tryCarry call participants =>
      (guard.tryCarry call participants).map .carried id
  | .stopCarrying call => (.stopped, guard.stopCarrying call)
  | .authorize call sender recipient frameBytes selfId =>
      (guard.authorize call sender recipient frameBytes selfId).map
        .authorized id
  | .refill now => (.refilled, guard.refill now)

/-- What an event sends: frame size times recipients. -/
def sent : Call × Outcome → ℕ
  | (.authorize _ _ _ frameBytes _, .authorized (.ok fan)) =>
      frameBytes.toNat * fan.recipients.length
  | _ => 0

/-- The total of frame size times recipients over all `Ok` authorizations. -/
def spent (es : List (Call × Outcome)) : ℕ := (es.map sent).sum

/-- The same total with each authorization counted as far as a `u64`
counts. -/
def charged (es : List (Call × Outcome)) : ℕ :=
  (es.map fun e => min (UInt64.size - 1) (sent e)).sum

/-- The timestamps given to `refill`, in order. -/
def refillTimes (calls : List Call) : List Timestamp :=
  calls.filterMap fun call =>
    match call with
    | .refill now => some now
    | _ => none

/-- How far a clock went forward between two readings. -/
def stepForward (earlier now : Timestamp) : ℕ :=
  (now.millisSince earlier).toInt.toNat

/-- How far a clock went forward in all. -/
def advanced : List Timestamp → ℕ
  | a :: b :: rest => stepForward a b + advanced (b :: rest)
  | _ => 0

theorem advanced_snoc (times : List Timestamp) (now : Timestamp) :
    advanced (times ++ [now]) = advanced times +
      times.getLast?.elim 0 fun last => stepForward last now := by
  induction times with
  | nil => rfl
  | cons a times ih =>
      cases times with
      | nil => simp [advanced]
      | cons b times =>
          rw [List.cons_append, List.cons_append, advanced,
            ← List.cons_append, ih, advanced, List.getLast?_cons_cons,
            Nat.add_assoc]

/-! ## What a call can do -/

/-- Every call keeps the limits. What a refill does not touch is the clock,
and what an authorization does not touch is the allowance. -/
inductive Move (guard : MediaRelayGuard) :
    Call → Outcome → MediaRelayGuard → Prop
  | rostered (call : Call) (outcome : Outcome) (next : MediaRelayGuard)
      (hsent : sent (call, outcome) = 0) (htimes : refillTimes [call] = [])
      (hlimits : next.limits = guard.limits)
      (hallowance : next.allowance = guard.allowance)
      (hlast : next.lastRefill = guard.lastRefill) :
      Move guard call outcome next
  | charged (call : CallId) (sender : PerNetworkIdentityId)
      (recipient : Recipient) (frameBytes : UInt64)
      (selfId : PerNetworkIdentityId) (fan : FanOut)
      (h : saturatingMul frameBytes fan.recipients.length ≤ guard.allowance) :
      Move guard (.authorize call sender recipient frameBytes selfId)
        (.authorized (.ok fan))
        { guard with
          allowance := guard.allowance -
            saturatingMul frameBytes fan.recipients.length
          forwardedBytes := guard.forwardedBytes +
            saturatingMul frameBytes fan.recipients.length }
  | refilled (now : Timestamp) :
      Move guard (.refill now) .refilled (guard.refill now)

/-- An authorization is refused, and only counted, or charged. -/
theorem authorize_cases (guard : MediaRelayGuard) (call : CallId)
    (sender : PerNetworkIdentityId) (recipient : Recipient)
    (frameBytes : UInt64) (selfId : PerNetworkIdentityId) :
    (∃ reason, guard.authorize call sender recipient frameBytes selfId =
      (.error reason, guard.refuse)) ∨
    ∃ participants fan, guard.calls[call]? = some participants ∧
      sender ∈ participants ∧
      fanOut participants sender recipient selfId = .ok fan ∧
      saturatingMul frameBytes fan.recipients.length ≤ guard.allowance ∧
      guard.authorize call sender recipient frameBytes selfId =
        (.ok fan, { guard with
          allowance := guard.allowance -
            saturatingMul frameBytes fan.recipients.length
          forwardedBytes := guard.forwardedBytes +
            saturatingMul frameBytes fan.recipients.length }) := by
  unfold authorize
  split
  · exact Or.inl ⟨_, rfl⟩
  · next participants hcarried =>
      split
      · exact Or.inl ⟨_, rfl⟩
      · next hsender =>
          rw [Bool.not_eq_true, Bool.not_eq_false'] at hsender
          split
          · exact Or.inl ⟨_, rfl⟩
          · next fan hfan =>
              dsimp only
              split
              · exact Or.inl ⟨_, rfl⟩
              · next hroom =>
                  exact Or.inr ⟨participants, fan, hcarried,
                    Std.ExtTreeSet.contains_iff_mem.1 hsender, hfan,
                    UInt64.not_lt.1 hroom, rfl⟩

theorem move (guard : MediaRelayGuard) (call : Call) :
    Move guard call (guard.step call).1 (guard.step call).2 := by
  cases call with
  | tryCarry call participants =>
      show Move guard _ (.carried (guard.tryCarry call participants).1)
        (guard.tryCarry call participants).2
      unfold tryCarry
      dsimp only
      split
      · exact .rostered _ _ _ rfl rfl rfl rfl rfl
      · split
        · exact .rostered _ _ _ rfl rfl rfl rfl rfl
        · exact .rostered _ _ _ rfl rfl rfl rfl rfl
  | stopCarrying call => exact .rostered _ _ _ rfl rfl rfl rfl rfl
  | authorize call sender recipient frameBytes selfId =>
      rw [step]
      rcases guard.authorize_cases call sender recipient frameBytes selfId with
        ⟨reason, hrefused⟩ | ⟨-, fan, -, -, -, hroom, hcharged⟩
      · rw [hrefused]
        exact .rostered _ _ _ rfl rfl rfl rfl rfl
      · rw [hcharged]
        exact .charged call sender recipient frameBytes selfId fan hroom
  | refill now => exact .refilled now

/-! ## The account -/

theorem saturatingMul_toNat (a : UInt64) (n : ℕ) :
    (saturatingMul a n).toNat = min (UInt64.size - 1) (a.toNat * n) := by
  rw [saturatingMul, UInt64.toNat_ofNat', Nat.mod_eq_of_lt]
  simp only [UInt64.size]
  omega

/-- What has been charged and what is left were there at the start or have
been earned since. -/
structure Account (limits : MediaRelayLimits) (es : List (Call × Outcome))
    (guard : MediaRelayGuard) : Prop where
  kept : guard.limits = limits
  last : guard.lastRefill = (refillTimes (es.map Prod.fst)).getLast?
  allowance : guard.allowance ≤ limits.burstBytes
  balance : 1000 * (charged es + guard.allowance.toNat) ≤
    1000 * limits.burstBytes.toNat + limits.forwardBytesPerSec.toNat *
      advanced (refillTimes (es.map Prod.fst))
  counted : limits.burstBytes.toNat < UInt64.size - 1 →
    charged es = spent es

theorem account_new (limits : MediaRelayLimits) :
    Account limits [] (new limits) where
  kept := rfl
  last := rfl
  allowance := UInt64.le_refl _
  balance := by
    show 1000 * (0 + limits.burstBytes.toNat) ≤ _
    omega
  counted := fun _ => rfl

theorem charged_snoc (es : List (Call × Outcome)) (e : Call × Outcome) :
    charged (es ++ [e]) = charged es + min (UInt64.size - 1) (sent e) := by
  simp [charged]

theorem spent_snoc (es : List (Call × Outcome)) (e : Call × Outcome) :
    spent (es ++ [e]) = spent es + sent e := by
  simp [spent]

theorem refillTimes_snoc (es : List (Call × Outcome)) (call : Call)
    (outcome : Outcome) :
    refillTimes ((es ++ [(call, outcome)]).map Prod.fst) =
      refillTimes (es.map Prod.fst) ++ refillTimes [call] := by
  simp [refillTimes]

theorem refill_lastRefill (guard : MediaRelayGuard) (now : Timestamp) :
    (guard.refill now).lastRefill = some now := by
  unfold refill
  split
  · rfl
  · dsimp only
    split <;> rfl

theorem refill_limits (guard : MediaRelayGuard) (now : Timestamp) :
    (guard.refill now).limits = guard.limits := by
  unfold refill
  split
  · rfl
  · dsimp only
    split <;> rfl

/-- A refill leaves no more than the burst, and adds no more than the rate
times the step forward. -/
theorem refill_allowance {guard : MediaRelayGuard}
    (h : guard.allowance ≤ guard.limits.burstBytes) (now : Timestamp) :
    (guard.refill now).allowance ≤ guard.limits.burstBytes ∧
      1000 * (guard.refill now).allowance.toNat ≤
        1000 * guard.allowance.toNat + guard.limits.forwardBytesPerSec.toNat *
          guard.lastRefill.elim 0 fun last => stepForward last now := by
  unfold refill
  split
  · exact ⟨h, Nat.le_add_right _ _⟩
  · next last hlast =>
      dsimp only
      split
      · exact ⟨h, Nat.le_add_right _ _⟩
      · rw [hlast, Option.elim_some, stepForward]
        have hearned : 1000 * guard.earned (now.millisSince last) ≤
            guard.limits.forwardBytesPerSec.toNat *
              (now.millisSince last).toInt.toNat := by
          rw [earned]
          omega
        have hburst := guard.limits.burstBytes.toNat_lt
        rw [UInt64.le_iff_toNat_le, UInt64.toNat_ofNat', Nat.mod_eq_of_lt]
        · omega
        · omega

theorem Move.account {limits : MediaRelayLimits} {es : List (Call × Outcome)}
    {guard next : MediaRelayGuard} {call : Call} {outcome : Outcome}
    (hmove : Move guard call outcome next) (h : Account limits es guard) :
    Account limits (es ++ [(call, outcome)]) next := by
  cases hmove with
  | rostered _ _ _ hsent htimes hlimits hallowance hlast =>
      refine ⟨hlimits.trans h.kept, ?_, ?_, ?_, ?_⟩
      · rw [refillTimes_snoc, htimes, List.append_nil, hlast, h.last]
      · rw [hallowance]
        exact h.allowance
      · rw [refillTimes_snoc, htimes, List.append_nil, charged_snoc, hsent,
          hallowance]
        exact h.balance
      · intro hburst
        rw [charged_snoc, spent_snoc, hsent, h.counted hburst, Nat.min_zero]
  | charged call sender recipient frameBytes selfId fan hroom =>
      have hbalance := h.balance
      have hallowance := h.allowance
      rw [UInt64.le_iff_toNat_le, saturatingMul_toNat] at hroom
      rw [UInt64.le_iff_toNat_le] at hallowance
      have hleft : (guard.allowance -
          saturatingMul frameBytes fan.recipients.length).toNat =
            guard.allowance.toNat - min (UInt64.size - 1)
              (frameBytes.toNat * fan.recipients.length) := by
        rw [UInt64.toNat_sub_of_le _ _ (by
          rw [UInt64.le_iff_toNat_le, saturatingMul_toNat]
          exact hroom), saturatingMul_toNat]
      have htimes : refillTimes
          [.authorize call sender recipient frameBytes selfId] = [] := rfl
      refine ⟨h.kept, ?_, ?_, ?_, ?_⟩
      · rw [refillTimes_snoc, htimes, List.append_nil]
        exact h.last
      · rw [UInt64.le_iff_toNat_le, hleft]
        omega
      · rw [refillTimes_snoc, htimes, List.append_nil, charged_snoc, hleft,
          sent]
        omega
      · intro hburst
        rw [charged_snoc, spent_snoc, h.counted hburst, sent]
        omega
  | refilled now =>
      have hallowance : guard.allowance ≤ guard.limits.burstBytes := by
        rw [h.kept]
        exact h.allowance
      obtain ⟨hcap, hgain⟩ := refill_allowance hallowance now
      have hbalance := h.balance
      rw [h.kept] at hcap hgain
      have htimes : refillTimes [Call.refill now] = [now] := rfl
      have hsent : sent (Call.refill now, Outcome.refilled) = 0 := rfl
      refine ⟨(refill_limits _ _).trans h.kept, ?_, hcap, ?_, ?_⟩
      · rw [refillTimes_snoc, htimes, List.getLast?_concat, refill_lastRefill]
      · rw [refillTimes_snoc, htimes, advanced_snoc, ← h.last, charged_snoc,
          Nat.mul_add limits.forwardBytesPerSec.toNat]
        rw [hsent]
        omega
      · intro hburst
        rw [charged_snoc, spent_snoc, hsent, h.counted hburst, Nat.min_zero]

theorem account (limits : MediaRelayLimits) (calls : List Call) :
    Account limits (Machine.trace step (new limits) calls)
      (Machine.state step (new limits) calls) := by
  refine Machine.history (account_new limits) ?_ calls
  intro es guard call h
  exact (guard.move call).account h

/-- On a clock that never goes back, the steps add up to the whole way. -/
theorem advanced_of_pairwise {times : List Timestamp} {t0 T : Timestamp}
    (hmono : times.Pairwise fun a b => a.millis ≤ b.millis)
    (hfirst : times.head? = some t0) (hlast : times.getLast? = some T)
    (hfit : T.millis.toInt - t0.millis.toInt < 2 ^ 63) :
    (advanced times : ℤ) = T.millis.toInt - t0.millis.toInt := by
  induction times generalizing t0 with
  | nil => cases hfirst
  | cons a times ih =>
      obtain rfl : a = t0 := Option.some.inj hfirst
      cases times with
      | nil =>
          cases hlast
          simp [advanced]
      | cons b times =>
          obtain ⟨hle, hrest⟩ := List.pairwise_cons.1 hmono
          rw [List.getLast?_cons_cons] at hlast
          have hab := Int64.le_iff_toInt_le.1 (hle b List.mem_cons_self)
          have hbT : b.millis.toInt ≤ T.millis.toInt := by
            rcases List.mem_cons.1 (List.mem_of_getLast? hlast) with rfl | hT
            · exact le_rfl
            · exact Int64.le_iff_toInt_le.1 ((List.pairwise_cons.1 hrest).1 T hT)
          have hstep : (b.millisSince a).toInt =
              b.millis.toInt - a.millis.toInt :=
            Timestamp.millisSince_toInt ⟨by omega, by omega⟩
          rw [advanced, stepForward, hstep, Nat.cast_add,
            ih hrest rfl hlast (by omega)]
          omega

/-- The bound a relay does keep, over every run. -/
theorem spending_within_advance (limits : MediaRelayLimits)
    (calls : List Call) :
    let guard := Machine.state step (new limits) calls
    let es := Machine.trace step (new limits) calls
    let times := refillTimes calls
    charged es ≤ limits.burstBytes.toNat +
        limits.forwardBytesPerSec.toNat * advanced times / 1000 ∧
      (limits.burstBytes.toNat < UInt64.size - 1 → charged es = spent es) ∧
      (∀ t0 T, times.Pairwise (fun a b => a.millis ≤ b.millis) →
        times.head? = some t0 → times.getLast? = some T →
        T.millis.toInt - t0.millis.toInt < 2 ^ 63 →
        (advanced times : ℤ) = T.millis.toInt - t0.millis.toInt) ∧
      guard.allowance ≤ limits.burstBytes ∧
      ∀ call sender recipient frameBytes selfId reason,
        (guard.authorize call sender recipient frameBytes selfId).1 =
          .error reason →
        (guard.authorize call sender recipient frameBytes selfId).2.allowance =
            guard.allowance ∧
          (guard.authorize call sender recipient frameBytes selfId).2.calls =
            guard.calls := by
  intro guard es times
  have haccount := account limits calls
  have htimes : refillTimes (es.map Prod.fst) = times :=
    congrArg refillTimes (Machine.map_fst_trace calls)
  refine ⟨?_, haccount.counted, ?_, haccount.allowance, ?_⟩
  · have hbalance : 1000 * (charged es + guard.allowance.toNat) ≤ _ :=
      haccount.balance
    rw [htimes] at hbalance
    omega
  · intro t0 T hmono hfirst hlast hfit
    exact advanced_of_pairwise hmono hfirst hlast hfit
  · intro call sender recipient frameBytes selfId reason hrefused
    rcases guard.authorize_cases call sender recipient frameBytes selfId with
      ⟨r, heq⟩ | ⟨-, fan, -, -, -, -, heq⟩
    · rw [heq]
      exact ⟨rfl, rfl⟩
    · rw [heq] at hrefused
      cases hrefused

/-- The clock goes from ten seconds back to five and on: half a second is
earned at readings that never pass the first one. -/
def rebasedCalls : List Call :=
  let call : CallId := ⟨Bytes.ofNat 32 1⟩
  let frame := fun bytes => Call.authorize call (Sample.identity 1)
    .participants bytes (Sample.identity 9)
  [.tryCarry call [Sample.identity 1, Sample.identity 2], frame 1000,
    .refill ⟨10000⟩, .refill ⟨5000⟩, .refill ⟨5500⟩, frame 500]

theorem spending_past_rate :
    ¬ ∀ (limits : MediaRelayLimits) (calls : List Call) (t0 T : Timestamp),
      (refillTimes calls).head? = some t0 → T ∈ refillTimes calls →
      (∀ t ∈ refillTimes calls, t.millis ≤ T.millis) →
      spent (Machine.trace step (new limits) calls) ≤
        limits.burstBytes.toNat + limits.forwardBytesPerSec.toNat *
          (T.millis.toInt - t0.millis.toInt).toNat / 1000 := by
  intro h
  have hbound := h ⟨8, 50, 1000, 1000⟩ rebasedCalls ⟨10000⟩ ⟨10000⟩ rfl
    (by decide) (by decide)
  have hspent : spent (Machine.trace step (new ⟨8, 50, 1000, 1000⟩)
      rebasedCalls) = 1500 := by
    decide +kernel
  rw [hspent] at hbound
  exact absurd hbound (by decide)

end MediaRelayGuard

end Intranet
