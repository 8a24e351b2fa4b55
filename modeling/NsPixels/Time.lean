import Mathlib.Algebra.Order.Ring.Nat
import Mathlib.Order.Basic

/-!
# Instants and durations

The tick clock of `embassy-time`. Instants and durations are natural numbers of
ticks, written `ℕ` throughout; the tick rate is a parameter of the development,
fixed by the board's time driver.
-/

namespace NsPixels

/-- The tick rate of the time driver. -/
class TickRate where
  hz : ℕ
  hz_pos : 0 < hz

/-- Microsecond ticks, the default of the time driver. -/
abbrev microTicks : TickRate := ⟨1000000,by decide⟩

namespace Instant

/-- Ticks from `earlier` to `now`; `none` when `earlier` is the later one. -/
def checkedDurationSince (now earlier : ℕ) : Option ℕ :=
  if earlier ≤ now then some (now - earlier) else none

/-- As `checkedDurationSince`, but the code panics on `none`. -/
def durationSince (now earlier : ℕ) : Option ℕ := checkedDurationSince now earlier

/-- `none` when the result would lie before boot. -/
def checkedSub (now : ℕ) (d : ℕ) : Option ℕ :=
  if d ≤ now then some (now - d) else none

theorem checkedDurationSince_of_le {now earlier : ℕ} (h : earlier ≤ now) :
    checkedDurationSince now earlier = some (now - earlier) := if_pos h

theorem checkedDurationSince_of_lt {now earlier : ℕ} (h : now < earlier) :
    checkedDurationSince now earlier = none := if_neg (by omega)

end Instant

namespace Duration

variable [TickRate]

/-- Whole seconds in a duration, rounded down. -/
def asSecs (d : ℕ) : ℕ := d / TickRate.hz

/-- The duration of `s` whole seconds. -/
def fromSecs (s : ℕ) : ℕ := s * TickRate.hz

@[simp] theorem asSecs_fromSecs (s : ℕ) : asSecs (fromSecs s) = s :=
  Nat.mul_div_cancel s TickRate.hz_pos

@[simp] theorem asSecs_zero : asSecs 0 = 0 := Nat.zero_div _

theorem le_asSecs_iff {s : ℕ} {d : ℕ} : s ≤ asSecs d ↔ fromSecs s ≤ d :=
  Nat.le_div_iff_mul_le TickRate.hz_pos

theorem fromSecs_asSecs_le (d : ℕ) : fromSecs (asSecs d) ≤ d := Nat.div_mul_le_self _ _

theorem lt_fromSecs_asSecs_add_one (d : ℕ) : d < fromSecs (asSecs d + 1) := by
  rw [← not_le,← le_asSecs_iff]
  exact Nat.not_succ_le_self _

theorem fromSecs_add (s t : ℕ) : fromSecs (s + t) = fromSecs s + fromSecs t := Nat.add_mul _ _ _

theorem fromSecs_mono {s t : ℕ} (h : s ≤ t) : fromSecs s ≤ fromSecs t := Nat.mul_le_mul_right _ h

theorem fromSecs_pos {s : ℕ} (h : 0 < s) : 0 < fromSecs s := Nat.mul_pos h TickRate.hz_pos

end Duration

end NsPixels
