import Intranet.Ref.Bytes

/-!
# Differences of timestamps

The subtraction of two timestamps wraps. Within the range of an `i64` it is
the difference of the integers.
-/

namespace Intranet

/-- A difference that fits into an `i64` is the difference of the integers. -/
theorem Timestamp.millisSince_toInt {t earlier : Timestamp}
    (hfit : -2 ^ 63 ≤ t.millis.toInt - earlier.millis.toInt ∧
      t.millis.toInt - earlier.millis.toInt < 2 ^ 63) :
    (t.millisSince earlier).toInt = t.millis.toInt - earlier.millis.toInt := by
  rw [Timestamp.millisSince, Int64.toInt_sub]
  exact Int.bmod_eq_of_le (by omega) (by omega)

end Intranet
