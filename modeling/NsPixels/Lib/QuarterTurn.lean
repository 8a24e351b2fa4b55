import Mathlib.Algebra.Group.End
import Mathlib.Data.ZMod.Defs

/-!
# Quarter turns of a square grid

The turns of an `n × n` grid by multiples of a right angle. They compose by adding
their angles, so any chain of turns is one turn.
-/

namespace QuarterTurn

/-- One turn by a right angle. -/
def quarter (n : ℕ) : Equiv.Perm (Fin n × Fin n) where
  toFun p := (p.2.rev,p.1)
  invFun p := (p.2,p.1.rev)
  left_inv p := by simp
  right_inv p := by simp

theorem quarter_pow_four (n : ℕ) : quarter n ^ 4 = 1 := by
  ext p <;> simp [pow_succ,quarter]

/-- The turn by `k` right angles. -/
def turn (n : ℕ) (k : Fin 4) : Equiv.Perm (Fin n × Fin n) := quarter n ^ k.val

@[simp] theorem turn_zero (n : ℕ) : turn n 0 = 1 := pow_zero _

theorem quarter_pow_mod (n k : ℕ) : quarter n ^ (k % 4) = quarter n ^ k := by
  conv_rhs => rw [← Nat.div_add_mod k 4,pow_add,pow_mul,quarter_pow_four,one_pow,one_mul]

/-- Turns compose by adding their angles. -/
theorem turn_add (n : ℕ) (j k : Fin 4) : turn n (j + k) = turn n j * turn n k := by
  rw [turn,Fin.val_add,quarter_pow_mod,pow_add,turn,turn]

/-- A chain of two relative turns is one. -/
theorem turn_sub_turn_sub (n : ℕ) (i j k : Fin 4) (p : Fin n × Fin n) :
    turn n (k - j) (turn n (j - i) p) = turn n (k - i) p := by
  rw [← Equiv.Perm.mul_apply,← turn_add,sub_add_sub_cancel]

theorem turn_one (n : ℕ) (p : Fin n × Fin n) : turn n 1 p = (p.2.rev,p.1) := rfl

theorem turn_two (n : ℕ) (p : Fin n × Fin n) : turn n 2 p = (p.1.rev,p.2.rev) := rfl

theorem turn_three (n : ℕ) (p : Fin n × Fin n) : turn n 3 p = (p.2,p.1.rev) := by
  simp [turn,pow_succ,quarter]

end QuarterTurn
