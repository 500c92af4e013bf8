import Intranet.Lib.BTree
import Intranet.Ref.Bytes

/-!
# Per-sender metering for direct delivery

The transport crate's `direct_limits.rs`. A node counts what each identity has
sent it within a window and refuses more than a few messages. The table of
senders has a ceiling; a sender that is not in a full table is refused unless
dropping the senders with nothing in the window makes room.

The meter holds no clock: the time of a message is passed in.
-/

namespace Intranet

/-- A reading of the monotonic clock, in nanoseconds. -/
structure Instant where
  nanos : ℕ
deriving DecidableEq

namespace Instant

theorem ext {a b : Instant} (h : a.nanos = b.nanos) : a = b := by
  cases a
  cases b
  exact congrArg Instant.mk h

instance : LinearOrder Instant := LinearOrder.lift' nanos fun _ _ => ext

/-- The time since an earlier reading, in nanoseconds; zero if it is later. -/
def durationSince (now earlier : Instant) : ℕ := now.nanos - earlier.nanos

end Instant

/-- Per-sender send history. -/
structure DirectMeter where
  seen : BTreeMap PerNetworkIdentityId (List Instant)

namespace DirectMeter

/-- `PER_WINDOW`: how many messages one identity may send in a window. -/
def perWindow : ℕ := 5

/-- `WINDOW`: a minute. -/
def window : ℕ := 60 * 1000000000

/-- `MAX_TRACKED`: how many senders are tracked. -/
def maxTracked : ℕ := 4096

/-- A meter with nothing recorded. -/
def new : DirectMeter := ⟨∅⟩

/-- How many senders are tracked. -/
def tracked (meter : DirectMeter) : ℕ := meter.seen.size

/-- The test by which histories are retained. -/
def inWindow (earlier now : Instant) : Bool :=
  decide (now.durationSince earlier < window)

/-- Drops senders with nothing inside the window. -/
def forgetStale (meter : DirectMeter) (now : Instant) : DirectMeter :=
  ⟨meter.seen.filterMap fun _ history =>
    let history := history.filter fun earlier => inWindow earlier now
    if history.isEmpty then none else some history⟩

/-- The end of `admits`: there is room for the sender. -/
def count (meter : DirectMeter) (sender : PerNetworkIdentityId)
    (now : Instant) : Bool × DirectMeter :=
  let history := (meter.seen[sender]?.getD []).filter fun earlier =>
    inWindow earlier now
  if perWindow ≤ history.length then
    (false, ⟨meter.seen.insert sender history⟩)
  else (true, ⟨meter.seen.insert sender (history ++ [now])⟩)

/-- Records a message from `sender` and says whether it is within the
limit. -/
def admits (meter : DirectMeter) (sender : PerNetworkIdentityId)
    (now : Instant) : Bool × DirectMeter :=
  if maxTracked ≤ meter.tracked ∧ !meter.seen.contains sender then
    let meter := meter.forgetStale now
    if maxTracked ≤ meter.tracked then (false, meter)
    else meter.count sender now
  else meter.count sender now

end DirectMeter

end Intranet
