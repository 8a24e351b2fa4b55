import Mathlib.Data.List.Perm.Basic

/-!
# Waiting in a list that is served from its front

Those who qualify are served, as many at a time as there is room for. Who qualifies and
is not served stands behind as many others as were.
-/

namespace Waiting

variable {α : Type*} {p : α → Bool} {l front back : List α} {a : α} {k : ℕ}

/-- Not being served means that all the room went to those in front. -/
theorem served_in_front (hl : l = front ++ a :: back) (ha : p a = true)
    (hnot : a ∉ (l.filter p).take k) :
    ((l.filter p).take k).length = k ∧ ∀ b ∈ (l.filter p).take k, b ∈ front := by
  have hfilter : l.filter p = front.filter p ++ a :: back.filter p := by
    rw [hl,List.filter_append,List.filter_cons_of_pos ha]
  rw [hfilter] at hnot ⊢
  have hk : k ≤ (front.filter p).length := by
    by_contra hlt
    refine hnot (List.mem_take_iff_getElem.mpr ⟨(front.filter p).length,?_,?_⟩)
    · rw [List.length_append,List.length_cons]
      omega
    · simp
  rw [List.take_append_of_le_length hk]
  refine ⟨List.length_take_of_le hk,fun b hb => ?_⟩
  exact List.mem_of_mem_filter (List.mem_of_mem_take hb)

/-- Different ones, all of them in front, are no more than those in front. -/
theorem length_le_of_front {done : List α} (hnodup : done.Nodup) (hfront : ∀ b ∈ done, b ∈ front) :
    done.length ≤ front.length :=
  (List.subperm_of_subset hnodup hfront).length_le

end Waiting
