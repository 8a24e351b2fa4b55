import Mathlib.Data.List.Induction
import Mathlib.Logic.Function.Basic

/-!
# Painting a blank frame

Writes to single places of a frame, in order. Where a place is written once, or not at
all, the order does not matter. A surface that keeps only part of what is written shows
that part of the painted frame.
-/

namespace Painting

variable {α β γ : Type*} [DecidableEq α]

/-- The frame after the writes of `d`; a later write to a place wins. -/
def paint (blank : β) (d : List (α × β)) : α → β :=
  d.foldl (fun frame w => Function.update frame w.1 w.2) fun _ => blank

variable {blank b : β} {d : List (α × β)} {a : α}

theorem paint_concat (w : α × β) :
    paint blank (d ++ [w]) = Function.update (paint blank d) w.1 w.2 := by
  rw [paint,List.foldl_append]
  rfl

theorem paint_of_notMem (h : a ∉ d.map Prod.fst) : paint blank d a = blank := by
  induction d using List.reverseRecOn with
  | nil => rfl
  | append_singleton d w ih =>
    rw [List.map_append,List.mem_append,not_or] at h
    have hne : a ≠ w.1 := fun heq => h.2 (List.mem_singleton.mpr heq)
    rw [paint_concat,Function.update_of_ne hne,ih h.1]

theorem paint_of_mem (hnodup : (d.map Prod.fst).Nodup) (h : (a,b) ∈ d) : paint blank d a = b := by
  induction d using List.reverseRecOn with
  | nil => cases h
  | append_singleton d w ih =>
    rw [List.map_append,List.nodup_append] at hnodup
    obtain hd | hw := List.mem_append.mp h
    · have hne : a ≠ w.1 := hnodup.2.2 a (List.mem_map_of_mem hd) w.1 (List.mem_singleton_self _)
      rw [paint_concat,Function.update_of_ne hne]
      exact ih hnodup.1 hd
    · obtain rfl := List.mem_singleton.mp hw
      rw [paint_concat,Function.update_self]

/-- Drawings of the same places with related values give related frames. -/
theorem paint_rel {R : β → β → Prop} {d' : List (α × β)} (hblank : R blank blank)
    (h : List.Forall₂ (fun v w => v.1 = w.1 ∧ R v.2 w.2) d d') (a : α) :
    R (paint blank d a) (paint blank d' a) := by
  have hfold : ∀ f f' : α → β, (∀ a, R (f a) (f' a)) → ∀ a,
      R (d.foldl (fun frame w => Function.update frame w.1 w.2) f a)
        (d'.foldl (fun frame w => Function.update frame w.1 w.2) f' a) := by
    induction h with
    | nil => exact fun _ _ hff' => hff'
    | @cons v w _ _ hw _ ih =>
      intro f f' hff'
      refine ih _ _ fun a => ?_
      dsimp only
      rw [hw.1,Function.update_apply,Function.update_apply]
      split
      · exact hw.2
      · exact hff' a
  exact hfold _ _ (fun _ => hblank) a

/-- Moving every write moves the picture. -/
theorem paint_map [DecidableEq γ] {move : α → γ} (hmove : Function.Injective move) :
    paint blank (d.map fun w => (move w.1,w.2)) (move a) = paint blank d a := by
  induction d using List.reverseRecOn with
  | nil => rfl
  | append_singleton d w ih =>
    rw [List.map_append,List.map_singleton,paint_concat,paint_concat]
    by_cases h : a = w.1
    · rw [h,Function.update_self,Function.update_self]
    · rw [Function.update_of_ne h,Function.update_of_ne (hmove.ne h),ih]

/-! ### Surfaces -/

/-- A surface with places `α` that is written with values `β` and shows `γ`: of every value
only what `keep` leaves of it. -/
structure Surface (σ α β γ : Type*) [DecidableEq α] where
  blank : β
  erase : σ → σ
  set : σ → α → β → σ
  level : σ → α → γ
  keep : β → γ
  level_erase : ∀ s a, level (erase s) a = keep blank
  level_set : ∀ s a b a', level (set s a b) a' = if a' = a then keep b else level s a'

namespace Surface

variable {σ : Type*} (S : Surface σ α β γ)

/-- Erase the surface and make the writes of `d`. -/
def paint (s : σ) (d : List (α × β)) : σ := d.foldl (fun s w => S.set s w.1 w.2) (S.erase s)

/-- What a surface shows does not depend on what was on it before. -/
theorem level_paint (s : σ) (d : List (α × β)) (a : α) :
    S.level (S.paint s d) a = S.keep (Painting.paint S.blank d a) := by
  induction d using List.reverseRecOn with
  | nil => exact S.level_erase s a
  | append_singleton d w ih =>
    rw [paint,List.foldl_append,List.foldl_cons,List.foldl_nil,S.level_set,paint_concat,
      Function.update_apply]
    split
    · rfl
    · exact ih

end Surface

end Painting
