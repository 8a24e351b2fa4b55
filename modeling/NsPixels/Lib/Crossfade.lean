import Mathlib.Algebra.Order.Ring.Nat
import Mathlib.Tactic.Ring

/-!
# Cross-fades in integer arithmetic

A channel cycles through `n` values in slots of `S` ticks and fades to the next value
over the last `F` ticks of a slot. The fade factor runs up to `D` and everything is
rounded down. When the factor has no more than `D ≤ F` steps, neighbouring ticks show
values that differ by at most 1.
-/

namespace Crossfade

/-- Two values that differ by at most 1. -/
def Close (a b : ℕ) : Prop := a ≤ b + 1 ∧ b ≤ a + 1

theorem Close.refl (a : ℕ) : Close a a := ⟨Nat.le_succ a,Nat.le_succ a⟩

/-- The value a fraction `t / D` of the way from `x` to `y`. -/
def lerp (D x y t : ℕ) : ℕ := (x * (D - t) + y * t) / D

variable {D : ℕ}

theorem lerp_zero (hD : 0 < D) (x y : ℕ) : lerp D x y 0 = x := by
  rw [lerp,Nat.sub_zero,Nat.mul_zero,Nat.add_zero,Nat.mul_div_cancel _ hD]

theorem lerp_full (hD : 0 < D) (x y : ℕ) : lerp D x y D = y := by
  rw [lerp,Nat.sub_self,Nat.mul_zero,Nat.zero_add,Nat.mul_div_cancel _ hD]

/-- The products stay within `D * D`, so the value stays within `D`. -/
theorem lerp_num_le {x y t : ℕ} (hx : x ≤ D) (hy : y ≤ D) (ht : t ≤ D) :
    x * (D - t) + y * t ≤ D * D := by
  calc x * (D - t) + y * t ≤ D * (D - t) + D * t :=
        Nat.add_le_add (Nat.mul_le_mul_right _ hx) (Nat.mul_le_mul_right _ hy)
    _ = D * D := by rw [← Nat.mul_add,Nat.sub_add_cancel ht]

/-- A fade stays above the lower of its ends. -/
theorem le_lerp {m x y t : ℕ} (hD : 0 < D) (hx : m ≤ x) (hy : m ≤ y) (ht : t ≤ D) :
    m ≤ lerp D x y t := by
  rw [lerp,Nat.le_div_iff_mul_le hD]
  calc m * D = m * (D - t) + m * t := by rw [← Nat.mul_add,Nat.sub_add_cancel ht]
    _ ≤ x * (D - t) + y * t := Nat.add_le_add (Nat.mul_le_mul_right _ hx) (Nat.mul_le_mul_right _ hy)

/-- Quotients of numerators that differ by at most the divisor. -/
theorem close_div {a b : ℕ} (hD : 0 < D) (hab : a ≤ b + D) (hba : b ≤ a + D) :
    Close (a / D) (b / D) := by
  constructor
  · rw [← Nat.add_div_right b hD]
    exact Nat.div_le_div_right hab
  · rw [← Nat.add_div_right a hD]
    exact Nat.div_le_div_right hba

/-- One step of the fade factor. -/
theorem lerp_close {x y t : ℕ} (hx : x ≤ D) (hy : y ≤ D) (ht : t < D) :
    Close (lerp D x y t) (lerp D x y (t + 1)) := by
  have hxs : x * (D - t) = x * (D - (t + 1)) + x := by
    rw [← Nat.mul_succ,show (D - (t + 1)).succ = D - t by omega]
  have hys : y * (t + 1) = y * t + y := Nat.mul_succ y t
  refine close_div (Nat.zero_lt_of_lt ht) ?_ ?_ <;> rw [hxs,hys] <;> omega

/-- At most one step. -/
theorem lerp_close_of_le {x y t t' : ℕ} (hx : x ≤ D) (hy : y ≤ D) (hle : t ≤ t')
    (hstep : t' ≤ t + 1) (ht : t' ≤ D) : Close (lerp D x y t) (lerp D x y t') := by
  rcases Nat.lt_or_ge t t' with hlt | hge
  · obtain rfl : t' = t + 1 := by omega
    exact lerp_close hx hy (by omega)
  · obtain rfl : t = t' := by omega
    exact Close.refl _

variable {n S F : ℕ}

/-- The fade factor `i` ticks into a slot; 0 before the fade begins. -/
def factor (D S F i : ℕ) : ℕ := (i + F - S) * D / F

theorem factor_succ (hF : 0 < F) (hDF : D ≤ F) (i : ℕ) :
    factor D S F i ≤ factor D S F (i + 1) ∧ factor D S F (i + 1) ≤ factor D S F i + 1 := by
  constructor
  · exact Nat.div_le_div_right (Nat.mul_le_mul_right D (by omega))
  · rw [factor,factor,← Nat.add_div_right _ hF]
    apply Nat.div_le_div_right
    calc (i + 1 + F - S) * D ≤ (i + F - S + 1) * D := Nat.mul_le_mul_right D (by omega)
      _ = (i + F - S) * D + D := Nat.succ_mul _ _
      _ ≤ (i + F - S) * D + F := Nat.add_le_add_left hDF _

theorem factor_le (hF : 0 < F) {i : ℕ} (hi : i ≤ S) : factor D S F i ≤ D := by
  rw [factor]
  calc (i + F - S) * D / F ≤ F * D / F := Nat.div_le_div_right (Nat.mul_le_mul_right D (by omega))
    _ = D := Nat.mul_div_cancel_left D hF

theorem factor_end (hF : 0 < F) : factor D S F S = D := by
  rw [factor,Nat.add_sub_cancel_left,Nat.mul_div_cancel_left D hF]

/-- Before the fade begins the factor is 0. -/
theorem factor_eq_zero {i : ℕ} (h : i + F ≤ S) : factor D S F i = 0 := by
  rw [factor,Nat.sub_eq_zero_of_le h,Nat.zero_mul,Nat.zero_div]

theorem factor_start (hFS : F ≤ S) : factor D S F 0 = 0 :=
  factor_eq_zero ((Nat.zero_add F).trans_le hFS)

/-- The value of slot `slot` out of `n`, `i` ticks into it. -/
def shown (D n S F : ℕ) (value : ℕ → ℕ) (slot i : ℕ) : ℕ :=
  lerp D (value slot) (value ((slot + 1) % n)) (factor D S F i)

/-- The value at tick `t` of the cycle. -/
def frame (D n S F : ℕ) (value : ℕ → ℕ) (t : ℕ) : ℕ :=
  shown D n S F value (t % (n * S) / S) (t % (n * S) % S)

theorem frame_eq (value : ℕ → ℕ) (t : ℕ) :
    frame D n S F value t = shown D n S F value (t / S % n) (t % S) := by
  rw [frame,Nat.mod_mul_left_div_self,Nat.mod_mul_left_mod]

/-- A tick moves on within a slot, or to the start of the next one. -/
theorem frame_succ (hS : 0 < S) (value : ℕ → ℕ) (t : ℕ) :
    (t % S + 1 < S ∧
      frame D n S F value (t + 1) = shown D n S F value (t / S % n) (t % S + 1)) ∨
    (t % S + 1 = S ∧
      frame D n S F value (t + 1) = shown D n S F value ((t / S % n + 1) % n) 0) := by
  have hlt := Nat.mod_lt t hS
  have ht := Nat.div_add_mod t S
  rcases Nat.lt_or_ge (t % S + 1) S with h | h
  · refine Or.inl ⟨h,?_⟩
    rw [frame_eq,show t + 1 = t % S + 1 + S * (t / S) by omega,Nat.add_mul_div_left _ _ hS,
      Nat.div_eq_of_lt h,Nat.zero_add,Nat.add_mul_mod_self_left,Nat.mod_eq_of_lt h]
  · refine Or.inr ⟨by omega,?_⟩
    have hnext : t + 1 = S * (t / S + 1) := by rw [Nat.mul_succ]; omega
    rw [frame_eq,hnext,Nat.mul_div_cancel_left _ hS,Nat.mul_mod_right,Nat.mod_add_mod]

/-- Neighbouring ticks show neighbouring values. -/
theorem frame_close (hF : 0 < F) (hFS : F ≤ S) (hD : 0 < D) (hDF : D ≤ F) {value : ℕ → ℕ}
    (hvalue : ∀ k, value k ≤ D) (t : ℕ) :
    Close (frame D n S F value t) (frame D n S F value (t + 1)) := by
  obtain ⟨hle,hstep⟩ := factor_succ (S := S) hF hDF (t % S)
  rw [frame_eq]
  rcases frame_succ (D := D) (F := F) (n := n) (hF.trans_le hFS) value t with
    ⟨hlt,hnext⟩ | ⟨heq,hnext⟩
  · rw [hnext]
    exact lerp_close_of_le (hvalue _) (hvalue _) hle hstep (factor_le hF hlt.le)
  · -- the last tick of the fade is one step short of the next value
    rw [heq,factor_end hF] at hle hstep
    have hclose := lerp_close_of_le (hvalue (t / S % n)) (hvalue ((t / S % n + 1) % n)) hle hstep
      le_rfl
    rw [lerp_full hD] at hclose
    have hstart : shown D n S F value ((t / S % n + 1) % n) 0 = value ((t / S % n + 1) % n) := by
      rw [shown,factor_start hFS,lerp_zero hD]
    rw [hnext,hstart]
    exact hclose

end Crossfade
