import Mathlib.Algebra.Order.Ring.Int

/-!
# IrohRings.SystemTime

`std::time::SystemTime` as the Unix targets represent it: a whole number of
nanoseconds from the UNIX epoch, negative before it, whose seconds fit an `i64`.
-/

namespace IrohRings

/-- Nanoseconds in a second. -/
def nanosPerSec : Nat := 1000000000

/-- A reading of the host's wall clock. -/
@[ext]
structure SystemTime where
  /-- Nanoseconds since the UNIX epoch. -/
  sinceEpoch : Int
  lower : -(2 ^ 63) * (nanosPerSec : Int) ≤ sinceEpoch
  upper : sinceEpoch < 2 ^ 63 * (nanosPerSec : Int)

namespace SystemTime

instance : LinearOrder SystemTime :=
  LinearOrder.lift' sinceEpoch fun _ _ h => SystemTime.ext h

/-- The earliest reading there is. -/
def earliest : SystemTime := ⟨-(2 ^ 63) * (nanosPerSec : Int), le_rfl, by decide⟩

theorem earliest_le (t : SystemTime) : earliest ≤ t := t.lower

end SystemTime

/-- `UNIX_EPOCH`. -/
def unixEpoch : SystemTime := ⟨0, by decide, by decide⟩

/-- `UNIX_EPOCH + Duration::from_secs(secs)`, for less than a century or so. -/
def SystemTime.afterEpoch (secs : UInt32) : SystemTime where
  sinceEpoch := secs.toNat * nanosPerSec
  lower := by
    rw [nanosPerSec]
    omega
  upper := by
    have hlt := secs.toNat_lt
    rw [nanosPerSec]
    omega

theorem SystemTime.epoch_le_afterEpoch (secs : UInt32) : unixEpoch ≤ afterEpoch secs := by
  show (0 : Int) ≤ secs.toNat * nanosPerSec
  rw [nanosPerSec]
  omega

end IrohRings
