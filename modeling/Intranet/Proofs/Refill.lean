import Intranet.Proofs.MediaLimits

/-!
# Refilling often and refilling rarely

A refill earns the rate times the elapsed milliseconds, a thousandth of it,
rounded down to whole bytes, and moves the baseline to where it was made. What
was rounded off is forgotten with the old baseline. Below the burst the
allowance after many refills is the sum of what the steps earned
(`refills_allowance`), and it falls behind a single refill over the same time
as soon as the remainders of the steps add up to a byte
(`refill_often_iff`).
-/

namespace Intranet

namespace MediaRelayGuard

variable {rate : ℕ}

/-- What the steps between the times earn, each for itself. -/
def earnedEach (rate : ℕ) : List Timestamp → ℕ
  | a :: b :: rest => rate * stepForward a b / 1000 + earnedEach rate (b :: rest)
  | _ => 0

/-- What the steps leave over, in thousandths of a byte. -/
def leftOver (rate : ℕ) : List Timestamp → ℕ
  | a :: b :: rest => rate * stepForward a b % 1000 + leftOver rate (b :: rest)
  | _ => 0

theorem earnedEach_add_leftOver (rate : ℕ) (times : List Timestamp) :
    1000 * earnedEach rate times + leftOver rate times =
      rate * advanced times := by
  induction times with
  | nil => rfl
  | cons a times ih =>
      cases times with
      | nil => rfl
      | cons b times =>
          rw [earnedEach, leftOver, advanced, Nat.mul_add rate, ← ih]
          have hstep := Nat.div_add_mod (rate * stepForward a b) 1000
          omega

/-! ## Below the burst -/

/-- A refill that stays below the burst adds exactly what it earned. -/
theorem refill_below {guard : MediaRelayGuard} {last now : Timestamp}
    (hlast : guard.lastRefill = some last)
    (hbelow : (guard.refill now).allowance < guard.limits.burstBytes) :
    (guard.refill now).allowance.toNat = guard.allowance.toNat +
      guard.limits.forwardBytesPerSec.toNat * stepForward last now / 1000 := by
  unfold refill at hbelow ⊢
  rw [hlast] at hbelow ⊢
  dsimp only at hbelow ⊢
  split at hbelow
  · next hback =>
      rw [if_pos hback]
      have hnone : stepForward last now = 0 := by
        rw [stepForward]
        have hle := Int64.le_iff_toInt_le.1 hback
        rw [Int64.toInt_zero] at hle
        omega
      rw [hnone, Nat.mul_zero, Nat.zero_div, Nat.add_zero]
  · next hforward =>
      rw [if_neg hforward]
      have hburst := guard.limits.burstBytes.toNat_lt
      rw [UInt64.lt_iff_toNat_lt, UInt64.toNat_ofNat', Nat.mod_eq_of_lt
        (by omega), earned] at hbelow
      rw [UInt64.toNat_ofNat', Nat.mod_eq_of_lt (by omega), earned,
        stepForward]
      have hsize : UInt64.size = 2 ^ 64 := rfl
      omega

/-- Refills that stay below the burst add what the steps earned. -/
theorem refills_allowance {guard : MediaRelayGuard} {last : Timestamp}
    (hlast : guard.lastRefill = some last) (times : List Timestamp)
    (hbelow : ∀ pre, pre <+: times →
      (pre.foldl refill guard).allowance < guard.limits.burstBytes) :
    (times.foldl refill guard).allowance.toNat = guard.allowance.toNat +
      earnedEach guard.limits.forwardBytesPerSec.toNat (last :: times) := by
  induction times generalizing guard last with
  | nil => rfl
  | cons now times ih =>
      have hfirst := refill_below hlast (hbelow [now]
        (List.prefix_append [now] times))
      have hrest := ih (refill_lastRefill guard now) (by
        intro pre hpre
        rw [refill_limits]
        exact hbelow (now :: pre) (List.cons_prefix_cons.2 ⟨rfl, hpre⟩))
      rw [refill_limits] at hrest
      rw [List.foldl_cons, hrest, hfirst, earnedEach, Nat.add_assoc]

/-- Over a span that a timestamp difference cannot hold, the single step is
none at all. -/
theorem stepForward_of_overflow {a b : Timestamp}
    (h : 2 ^ 63 ≤ b.millis.toInt - a.millis.toInt) : stepForward a b = 0 := by
  have hlow := a.millis.le_toInt
  have hhigh := b.millis.toInt_lt
  rw [stepForward, Timestamp.millisSince, Int64.toInt_sub, Int.toNat_eq_zero]
  rw [Int.bmod_def]
  omega

/-- The remainders of the steps stay under a byte together. Where the whole
span is beyond a timestamp difference, the rare refill earns nothing, and so
must the steps. -/
def RoundsAlike (rate : ℕ) (t0 last : Timestamp) (times : List Timestamp) :
    Prop :=
  if last.millis.toInt - t0.millis.toInt < 2 ^ 63 then
    leftOver rate (t0 :: times) < 1000
  else earnedEach rate (t0 :: times) = 0

/-- On a clock that never goes back, the steps earn together what the whole
span earns exactly when the rounding is alike. -/
theorem earnedEach_eq_iff {times : List Timestamp} {t0 last : Timestamp}
    (hmono : (t0 :: times).Pairwise fun a b => a.millis ≤ b.millis)
    (hlast : (t0 :: times).getLast? = some last) :
    earnedEach rate (t0 :: times) = rate * stepForward t0 last / 1000 ↔
      RoundsAlike rate t0 last times := by
  rw [RoundsAlike]
  split
  · next hfit =>
      have hadvanced := advanced_of_pairwise hmono rfl hlast hfit
      have hle : t0.millis.toInt ≤ last.millis.toInt := by
        rcases List.mem_cons.1 (List.mem_of_getLast? hlast) with rfl | hin
        · exact le_rfl
        · exact Int64.le_iff_toInt_le.1 ((List.pairwise_cons.1 hmono).1 last hin)
      have hwhole : stepForward t0 last = advanced (t0 :: times) := by
        rw [stepForward, Timestamp.millisSince_toInt ⟨by omega, by omega⟩]
        omega
      have hsum := earnedEach_add_leftOver rate (t0 :: times)
      rw [hwhole]
      omega
  · next hlong =>
      rw [stepForward_of_overflow (not_lt.1 hlong), Nat.mul_zero, Nat.zero_div]

/-- For nondecreasing refill times with no charge in between, and as long as
the burst is not reached, refilling at every time gives the allowance of
refilling at the first and the last alone if and only if the remainders of the
steps stay under a byte together. -/
theorem refill_often_iff (guard : MediaRelayGuard) (t0 : Timestamp)
    (times : List Timestamp) {last : Timestamp}
    (hmono : (t0 :: times).Pairwise fun a b => a.millis ≤ b.millis)
    (hlast : (t0 :: times).getLast? = some last)
    (hoften : ∀ pre, pre <+: times →
      (pre.foldl refill (guard.refill t0)).allowance <
        guard.limits.burstBytes)
    (hrarely : ((guard.refill t0).refill last).allowance <
      guard.limits.burstBytes) :
    (times.foldl refill (guard.refill t0)).allowance =
        ((guard.refill t0).refill last).allowance ↔
      RoundsAlike guard.limits.forwardBytesPerSec.toNat t0 last times := by
  have hlimits := refill_limits guard t0
  have hbase := refill_lastRefill guard t0
  have hmany := refills_allowance hbase times (by rwa [hlimits])
  have hone := refill_below hbase (by rwa [hlimits])
  rw [hlimits] at hmany hone
  rw [← earnedEach_eq_iff hmono hlast, ← UInt64.toNat_inj, hmany, hone,
    Nat.add_left_cancel_iff]

/-! ### A relay with a small cap -/

/-- A relay that may forward `rate` bytes a second and has spent its burst. -/
def spentRelay (rate : UInt64) : MediaRelayGuard :=
  let call : CallId := ⟨Bytes.ofNat 32 1⟩
  Machine.state step (new ⟨8, 50, rate, 2000⟩)
    [.tryCarry call [Sample.identity 1, Sample.identity 2],
      .authorize call (Sample.identity 1) .participants 2000 (Sample.identity 9)]

/-- At a thousand bytes a second no millisecond leaves anything over. -/
theorem refill_often_whole_bytes :
    ([⟨5⟩, ⟨10⟩].foldl refill ((spentRelay 1000).refill ⟨0⟩)).allowance =
      (((spentRelay 1000).refill ⟨0⟩).refill ⟨10⟩).allowance := by
  refine (refill_often_iff (spentRelay 1000) ⟨0⟩ [⟨5⟩, ⟨10⟩] ?_ rfl ?_ ?_).2 ?_
  · decide
  · have hall : ∀ pre ∈ ([⟨5⟩, ⟨10⟩] : List Timestamp).inits,
        (pre.foldl refill ((spentRelay 1000).refill ⟨0⟩)).allowance <
          (spentRelay 1000).limits.burstBytes := by
      decide +kernel
    exact fun pre hpre => hall pre ((List.mem_inits _ _).2 hpre)
  · decide +kernel
  · rw [RoundsAlike]
    decide +kernel

/-- At a hundred bytes a second, a relay that is refilled every five
milliseconds never forwards a byte again. -/
theorem refill_often_earns_nothing :
    ¬ ∀ (guard : MediaRelayGuard) (t0 : Timestamp) (times : List Timestamp)
        (last : Timestamp),
      (t0 :: times).Pairwise (fun a b => a.millis ≤ b.millis) →
      (t0 :: times).getLast? = some last →
      (∀ pre, pre <+: times → (pre.foldl refill (guard.refill t0)).allowance <
        guard.limits.burstBytes) →
      ((guard.refill t0).refill last).allowance < guard.limits.burstBytes →
      (times.foldl refill (guard.refill t0)).allowance =
        ((guard.refill t0).refill last).allowance := by
  intro h
  have hall : ∀ pre ∈ ([⟨5⟩, ⟨10⟩] : List Timestamp).inits,
      (pre.foldl refill ((spentRelay 100).refill ⟨0⟩)).allowance <
        (spentRelay 100).limits.burstBytes := by
    decide +kernel
  have hsame := h (spentRelay 100) ⟨0⟩ [⟨5⟩, ⟨10⟩] ⟨10⟩ (by decide) rfl
    (fun pre hpre => hall pre ((List.mem_inits _ _).2 hpre)) (by decide +kernel)
  exact absurd hsame (by decide +kernel)

end MediaRelayGuard

end Intranet
