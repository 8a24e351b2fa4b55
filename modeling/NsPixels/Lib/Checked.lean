import Mathlib.Algebra.Order.Ring.Nat

/-!
# Checked machine arithmetic

Results of fixed-width unsigned arithmetic as natural numbers; `none` is the panic on
an overflow, on a subtraction below 0 and on a remainder by 0.
-/

namespace Checked

/-- A result that has to fit in `w` bits. -/
def fits (w v : ℕ) : Option ℕ := if v < 2 ^ w then some v else none

def sub (a b : ℕ) : Option ℕ := if b ≤ a then some (a - b) else none

def rem (a b : ℕ) : Option ℕ := if b = 0 then none else some (a % b)

theorem fits_of_lt {w v : ℕ} (h : v < 2 ^ w) : fits w v = some v := if_pos h

theorem sub_of_le {a b : ℕ} (h : b ≤ a) : sub a b = some (a - b) := if_pos h

theorem rem_of_pos {a b : ℕ} (h : 0 < b) : rem a b = some (a % b) := if_neg (Nat.ne_of_gt h)

end Checked
