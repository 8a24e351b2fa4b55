import Mathlib.Data.List.Basic

/-!
# Slices of a buffer

Writes into part of a buffer and moves within it, as lists. An index out of range is
`none`; the length of a buffer never changes.
-/

namespace Slice

variable {α : Type*} {buf buf' src : List α} {start stop dest : ℕ}

/-- Overwrite the elements from `start` to `stop` with as many others. -/
def copyFrom (buf : List α) (start stop : ℕ) (src : List α) : Option (List α) :=
  if start ≤ stop ∧ stop ≤ buf.length ∧ src.length = stop - start then
    some (buf.take start ++ src ++ buf.drop stop)
  else none

/-- Move the elements from `start` to `stop` to `dest`, which they may overlap. -/
def copyWithin (buf : List α) (start stop dest : ℕ) : Option (List α) :=
  if start ≤ stop ∧ stop ≤ buf.length then
    copyFrom buf dest (dest + (stop - start)) ((buf.take stop).drop start)
  else none

theorem copyFrom_eq_some_iff : copyFrom buf start stop src = some buf' ↔
    (start ≤ stop ∧ stop ≤ buf.length ∧ src.length = stop - start) ∧
      buf' = buf.take start ++ src ++ buf.drop stop := by
  rw [copyFrom]
  by_cases h : start ≤ stop ∧ stop ≤ buf.length ∧ src.length = stop - start
  · rw [if_pos h,Option.some.injEq,eq_comm,and_iff_right h]
  · rw [if_neg h]
    exact iff_of_false (fun h' => by cases h') fun h' => h h'.1

theorem length_of_copyFrom (h : copyFrom buf start stop src = some buf') :
    buf'.length = buf.length := by
  obtain ⟨⟨hle,hstop,hsrc⟩,rfl⟩ := copyFrom_eq_some_iff.mp h
  simp only [List.length_append,List.length_take,List.length_drop]
  omega

theorem length_of_copyWithin (h : copyWithin buf start stop dest = some buf') :
    buf'.length = buf.length := by
  rw [copyWithin] at h
  split at h
  · exact length_of_copyFrom h
  · cases h

/-- Moving a block to the front. -/
theorem copyWithin_zero (hle : start ≤ stop) (hstop : stop ≤ buf.length) :
    copyWithin buf start stop 0 = some ((buf.take stop).drop start ++ buf.drop (stop - start)) := by
  have hlen : ((buf.take stop).drop start).length = stop - start := by
    rw [List.length_drop,List.length_take_of_le hstop]
  rw [copyWithin,if_pos ⟨hle,hstop⟩,copyFrom_eq_some_iff]
  refine ⟨⟨Nat.zero_le _,by omega,by omega⟩,?_⟩
  rw [List.take_zero,List.nil_append,Nat.zero_add]

end Slice
