import Mathlib.Data.List.Basic

/-!
# Histories

The part of a list of events that follows some, the first or the last event of a kind,
and how it grows when one more event happens.
-/

namespace History

variable {α : Type*} {P : α → Prop} {events rest : List α}

/-- `rest` follows an event with `P`. -/
def After (P : α → Prop) (events rest : List α) : Prop :=
  ∃ before a, events = before ++ a :: rest ∧ P a

/-- `rest` follows the first event with `P`. -/
def AfterFirst (P : α → Prop) (events rest : List α) : Prop :=
  ∃ before a, events = before ++ a :: rest ∧ P a ∧ ∀ b ∈ before, ¬ P b

/-- `rest` follows the last event with `P`. -/
def AfterLast (P : α → Prop) (events rest : List α) : Prop :=
  ∃ before a, events = before ++ a :: rest ∧ P a ∧ ∀ b ∈ rest, ¬ P b

theorem concat_split {before : List α} {a : α} (h : events = before ++ a :: rest) (b : α) :
    events ++ [b] = before ++ a :: (rest ++ [b]) := by
  rw [h,List.append_assoc,List.cons_append]

theorem After.concat (h : After P events rest) (b : α) : After P (events ++ [b]) (rest ++ [b]) := by
  obtain ⟨before,a,hsplit,ha⟩ := h
  exact ⟨before,a,concat_split hsplit b,ha⟩

theorem AfterFirst.concat (h : AfterFirst P events rest) (b : α) :
    AfterFirst P (events ++ [b]) (rest ++ [b]) := by
  obtain ⟨before,a,hsplit,ha,hbefore⟩ := h
  exact ⟨before,a,concat_split hsplit b,ha,hbefore⟩

theorem AfterLast.concat (h : AfterLast P events rest) {b : α} (hb : ¬ P b) :
    AfterLast P (events ++ [b]) (rest ++ [b]) := by
  obtain ⟨before,a,hsplit,ha,hrest⟩ := h
  refine ⟨before,a,concat_split hsplit b,ha,fun c hc => ?_⟩
  obtain hc | hc := List.mem_append.mp hc
  · exact hrest c hc
  · rwa [List.mem_singleton.mp hc]

variable {a : α}

theorem after_concat (events : List α) (ha : P a) : After P (events ++ [a]) [] :=
  ⟨events,a,rfl,ha⟩

theorem afterFirst_concat (hnone : ∀ b ∈ events, ¬ P b) (ha : P a) :
    AfterFirst P (events ++ [a]) [] :=
  ⟨events,a,rfl,ha,hnone⟩

theorem afterLast_concat (events : List α) (ha : P a) : AfterLast P (events ++ [a]) [] :=
  ⟨events,a,rfl,ha,nofun⟩

end History
