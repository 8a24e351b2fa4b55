import Mathlib.Data.UInt
import Mathlib.Algebra.Order.Ring.Nat

/-!
# Big-endian bytes

Natural numbers as a fixed count of bytes, most significant first.
-/

namespace BigEndian

/-- The `w` low bytes of `n`. -/
def toBytes : ℕ → ℕ → List UInt8
  | 0,_ => []
  | w + 1,n => UInt8.ofNat (n / 256 ^ w) :: toBytes w n

/-- The number that a list of bytes spells. -/
def ofBytes (bytes : List UInt8) : ℕ := bytes.foldl (fun n b => n * 256 + b.toNat) 0

@[simp] theorem length_toBytes (w n : ℕ) : (toBytes w n).length = w := by
  induction w with
  | zero => rfl
  | succ w ih => rw [toBytes,List.length_cons,ih]

theorem foldl_toBytes (w n acc : ℕ) :
    (toBytes w n).foldl (fun n b => n * 256 + b.toNat) acc = acc * 256 ^ w + n % 256 ^ w := by
  induction w generalizing acc with
  | zero => simp [toBytes,Nat.mod_one]
  | succ w ih =>
    rw [toBytes,List.foldl_cons,ih,UInt8.toNat_ofNat',show 2 ^ 8 = 256 from rfl,pow_succ,
      Nat.mod_mul,Nat.add_mul,Nat.mul_assoc,Nat.mul_comm 256,Nat.mul_comm (_ % 256)]
    omega

/-- Reading back what was written keeps the low bytes. -/
theorem ofBytes_toBytes (w n : ℕ) : ofBytes (toBytes w n) = n % 256 ^ w := by
  rw [ofBytes,foldl_toBytes,Nat.zero_mul,Nat.zero_add]

end BigEndian
