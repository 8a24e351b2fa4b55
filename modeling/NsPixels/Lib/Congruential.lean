import Mathlib.NumberTheory.Multiplicity
import Mathlib.Data.ZMod.Basic
import Mathlib.Algebra.Ring.GeomSum
import Mathlib.Tactic.Ring
import Mathlib.Tactic.LinearCombination

/-!
# Linear congruential generators modulo a power of two

The step `x ↦ a * x + c`. With `c` odd and `a` one more than a multiple of four, two places
of the sequence hold the same value exactly when they are a multiple of the modulus apart.
-/

namespace Congruential

open Finset

variable {k a c m n : ℕ}

/-- One step of the generator. -/
def step (k a c : ℕ) (x : ZMod (2 ^ k)) : ZMod (2 ^ k) := a * x + c

/-- How far `n` steps go. -/
theorem iterate_step_sub (k a c n : ℕ) (x : ZMod (2 ^ k)) :
    (step k a c)^[n] x - x = ((a - 1) * x + c) * ∑ i ∈ range n, (a : ZMod (2 ^ k)) ^ i := by
  induction n with
  | zero => simp
  | succ n ih =>
    rw [Function.iterate_succ_apply',step,geom_sum_succ]
    linear_combination (a : ZMod (2 ^ k)) * ih

theorem isUnit_natCast_of_odd (h : Odd n) : IsUnit (n : ZMod (2 ^ k)) :=
  (ZMod.isUnit_iff_coprime n (2 ^ k)).mpr (Nat.Coprime.pow_right k h.coprime_two_right)

/-- The sum of the powers of `a` is as even as their number. -/
theorem two_pow_dvd_geom_sum_iff (ha : a % 4 = 1) (k n : ℕ) :
    2 ^ k ∣ ∑ i ∈ range n, a ^ i ↔ 2 ^ k ∣ n := by
  rcases Nat.lt_or_ge 1 a with hlt | hle
  · have hfour : (4 : ℤ) ∣ (a : ℤ) - 1 := by omega
    have hodd : ¬ (2 : ℤ) ∣ a := by omega
    have hlift := Int.two_pow_sub_pow' n hfour hodd
    have hgeom : ((a : ℤ) - 1) * ((∑ i ∈ range n, a ^ i : ℕ) : ℤ) = (a : ℤ) ^ n - 1 ^ n := by
      push_cast
      rw [one_pow]
      exact mul_geom_sum (a : ℤ) n
    rw [← hgeom,emultiplicity_mul Int.prime_two] at hlift
    have hfinite : FiniteMultiplicity (2 : ℤ) ((a : ℤ) - 1) :=
      Int.finiteMultiplicity_iff.mpr ⟨by decide,by omega⟩
    have heq := ENat.add_right_injective_of_ne_top
      (finiteMultiplicity_iff_emultiplicity_ne_top.mp hfinite) hlift
    rw [← Int.natCast_dvd_natCast,← Int.natCast_dvd_natCast (n := n),Nat.cast_pow,Nat.cast_ofNat,
      pow_dvd_iff_le_emultiplicity,pow_dvd_iff_le_emultiplicity,heq]
  · obtain rfl : a = 1 := by omega
    simp

/-- A place where the sequence comes back to a value. -/
theorem iterate_step_eq_self_iff (ha : a % 4 = 1) (hc : c % 2 = 1) (n : ℕ) (x : ZMod (2 ^ k)) :
    (step k a c)^[n] x = x ↔ 2 ^ k ∣ n := by
  have hunit : IsUnit (((a : ZMod (2 ^ k)) - 1) * x + c) := by
    have hval : ((((a - 1) * x.val + c : ℕ)) : ZMod (2 ^ k)) = ((a : ZMod (2 ^ k)) - 1) * x + c := by
      rw [Nat.cast_add,Nat.cast_mul,ZMod.natCast_zmod_val,Nat.cast_sub (by omega),Nat.cast_one]
    rw [← hval]
    refine isUnit_natCast_of_odd (Nat.odd_iff.mpr ?_)
    rw [Nat.add_mod,Nat.mul_mod,show (a - 1) % 2 = 0 by omega]
    omega
  rw [← sub_eq_zero,iterate_step_sub,hunit.mul_right_eq_zero,← two_pow_dvd_geom_sum_iff ha k n,
    ← ZMod.natCast_eq_zero_iff]
  push_cast
  rfl

theorem step_injective (ha : a % 4 = 1) : Function.Injective (step k a c) := by
  intro x y h
  have hunit : IsUnit (a : ZMod (2 ^ k)) := isUnit_natCast_of_odd (Nat.odd_iff.mpr (by omega))
  exact hunit.mul_left_cancel (add_right_cancel h)

/-- Values repeat at multiples of the modulus and nowhere else. -/
theorem iterate_step_eq_iff (ha : a % 4 = 1) (hc : c % 2 = 1) (m n : ℕ) (x : ZMod (2 ^ k)) :
    (step k a c)^[m] x = (step k a c)^[n] x ↔ m ≡ n [MOD 2 ^ k] := by
  wlog hle : m ≤ n generalizing m n
  · rw [eq_comm,this n m (by omega),Nat.ModEq.comm]
  · rw [Nat.modEq_iff_dvd' hle,← iterate_step_eq_self_iff ha hc (n - m) x]
    obtain ⟨d,rfl⟩ := Nat.exists_eq_add_of_le hle
    rw [Nat.add_sub_cancel_left,Function.iterate_add_apply,eq_comm]
    exact ((step_injective ha).iterate m).eq_iff

end Congruential
