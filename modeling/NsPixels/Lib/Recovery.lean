import Mathlib.Data.List.Basic

/-!
# A value that survives crashes

Values are requested, written one at a time and found again after a crash. A write takes
the value requested last; while it is not known to have succeeded, the values before it
may still be found.
-/

namespace Recovery

variable {α : Type*}

/-- What happens to the value. -/
inductive Note (α : Type*)
  | requested (a : α)
  /-- a write of the value requested last begins -/
  | started
  /-- the write that began last has succeeded -/
  | stored
  /-- after a crash, `a` was found -/
  | booted (a : α)
deriving DecidableEq, Repr

open Note

/-- The note brings `a` about. -/
def Note.Carries (a : α) (n : Note α) : Prop := n = requested a ∨ n = booted a

/-- No crash in between. -/
def Unbroken (log : List (Note α)) : Prop := ∀ a, booted a ∉ log

/-- `a` is as new as what was stored: no write of a value requested after it has succeeded. -/
def Recoverable (log : List (Note α)) (a : α) : Prop :=
  ∃ front n rest, log = front ++ n :: rest ∧ n.Carries a ∧ Unbroken rest ∧
    ∀ b, ¬ [requested b,started,stored].Sublist rest

/-- `a` was requested last. -/
def Newest (log : List (Note α)) (a : α) : Prop :=
  ∃ front rest, log = front ++ requested a :: rest ∧ Unbroken rest ∧ ∀ b, requested b ∉ rest

/-- `a` is the value now: requested or found last. -/
def Current (log : List (Note α)) (a : α) : Prop :=
  ∃ front n rest, log = front ++ n :: rest ∧ n.Carries a ∧ ∀ b, requested b ∉ rest ∧ booted b ∉ rest

/-- `a` is the value of the write that began last. -/
def Writing (log : List (Note α)) (a : α) : Prop :=
  ∃ front rest, log = front ++ requested a :: rest ∧ Unbroken rest ∧
    ∀ b, ¬ [requested b,started].Sublist rest

variable {log l m : List (Note α)} {a b : α} {x y : Note α}

/-- A sublist that ends otherwise does not need the last element. -/
theorem sublist_of_concat (h : (l ++ [x]).Sublist (m ++ [y])) (hne : x ≠ y) :
    (l ++ [x]).Sublist m := by
  rw [← List.reverse_sublist,List.reverse_concat,List.reverse_concat] at h
  rw [← List.reverse_sublist,List.reverse_concat]
  cases h with
  | cons _ h => exact h
  | cons_cons _ _ => exact absurd rfl hne

theorem sublist_of_concat_self (h : (l ++ [x]).Sublist (m ++ [x])) : l.Sublist m :=
  (List.append_sublist_append_right [x]).mp h

theorem Unbroken.concat (h : Unbroken log) (hx : ∀ a, x ≠ booted a) : Unbroken (log ++ [x]) := by
  intro a ha
  obtain ha | ha := List.mem_append.mp ha
  · exact h a ha
  · exact hx a (List.mem_singleton.mp ha).symm

/-! ### What each note keeps -/

/-- Only a success takes values away. -/
theorem Recoverable.concat (h : Recoverable log a) (hbooted : ∀ b, x ≠ booted b)
    (hstored : x ≠ stored) : Recoverable (log ++ [x]) a := by
  obtain ⟨front,n,rest,rfl,hn,hrest,hnone⟩ := h
  refine ⟨front,n,rest ++ [x],by simp,hn,hrest.concat hbooted,fun b hsub => ?_⟩
  exact hnone b (sublist_of_concat (l := [requested b,started]) hsub hstored.symm)

theorem recoverable_booted (log : List (Note α)) (a : α) : Recoverable (log ++ [booted a]) a :=
  ⟨log,booted a,[],rfl,.inr rfl,fun _ => List.not_mem_nil,fun _ hsub => by cases hsub⟩

theorem current_concat (log : List (Note α)) (h : x.Carries a) : Current (log ++ [x]) a :=
  ⟨log,x,[],rfl,h,fun _ => ⟨List.not_mem_nil,List.not_mem_nil⟩⟩

theorem Current.concat (h : Current log a) (hx : ∀ b, ¬ x.Carries b) : Current (log ++ [x]) a := by
  obtain ⟨front,n,rest,rfl,hn,hrest⟩ := h
  refine ⟨front,n,rest ++ [x],by simp,hn,fun b => ⟨fun hb => ?_,fun hb => ?_⟩⟩
  · obtain hb | hb := List.mem_append.mp hb
    · exact (hrest b).1 hb
    · exact hx b (.inl (List.mem_singleton.mp hb).symm)
  · obtain hb | hb := List.mem_append.mp hb
    · exact (hrest b).2 hb
    · exact hx b (.inr (List.mem_singleton.mp hb).symm)

theorem newest_requested (log : List (Note α)) (a : α) : Newest (log ++ [requested a]) a :=
  ⟨log,[],rfl,fun _ => List.not_mem_nil,fun _ => List.not_mem_nil⟩

/-- The write takes the value requested last. -/
theorem Newest.writing (h : Newest log a) : Writing (log ++ [started]) a := by
  obtain ⟨front,rest,rfl,hrest,hlast⟩ := h
  refine ⟨front,rest ++ [started],by simp,hrest.concat (by simp),fun b hsub => ?_⟩
  have hb := sublist_of_concat_self (l := [requested b]) hsub
  exact hlast b (List.singleton_sublist.mp hb)

/-- Later requests wait. -/
theorem Writing.concat_requested (h : Writing log a) (b : α) : Writing (log ++ [requested b]) a := by
  obtain ⟨front,rest,rfl,hrest,hnone⟩ := h
  refine ⟨front,rest ++ [requested b],by simp,hrest.concat (by simp),fun c hsub => ?_⟩
  exact hnone c (sublist_of_concat (l := [requested c]) hsub (by simp))

theorem Newest.concat_stored (h : Newest log a) : Newest (log ++ [stored]) a := by
  obtain ⟨front,rest,rfl,hrest,hlast⟩ := h
  refine ⟨front,rest ++ [stored],by simp,hrest.concat (by simp),fun b hb => ?_⟩
  obtain hb | hb := List.mem_append.mp hb
  · exact hlast b hb
  · cases List.mem_singleton.mp hb

/-- What is being written may be found already. -/
theorem Writing.recoverable (h : Writing log a) : Recoverable log a := by
  obtain ⟨front,rest,rfl,hrest,hnone⟩ := h
  refine ⟨front,_,rest,rfl,.inl rfl,hrest,fun b hsub => hnone b ?_⟩
  exact (List.sublist_append_left [requested b,started] [stored]).trans hsub

/-- What has been written is found. -/
theorem Writing.stored (h : Writing log a) : Recoverable (log ++ [stored]) a := by
  obtain ⟨front,rest,rfl,hrest,hnone⟩ := h
  refine ⟨front,_,rest ++ [.stored],by simp,.inl rfl,hrest.concat (by simp),fun b hsub => ?_⟩
  exact hnone b (sublist_of_concat_self hsub)

/-! ### A write that succeeded -/

/-- `a` was requested last and has been stored since. -/
def Confirmed (log : List (Note α)) (a : α) : Prop :=
  ∃ front rest, log = front ++ requested a :: rest ∧ Unbroken rest ∧
    (∀ b, requested b ∉ rest) ∧ [started,stored].Sublist rest

theorem not_carries (hlast : ∀ b, requested b ∉ l) (hl : Unbroken l) (hx : x ∈ l) : ¬ x.Carries a := by
  rintro (rfl | rfl)
  · exact hlast a hx
  · exact hl a hx

/-- Only a confirmed value is found. -/
theorem Recoverable.eq_of_confirmed (h : Recoverable log b) (hconfirmed : Confirmed log a) :
    b = a := by
  obtain ⟨front,n,rest,rfl,hn,-,hnone⟩ := h
  obtain ⟨front',rest',heq,hrest',hlast,hstored⟩ := hconfirmed
  have hsame : ∀ {tail}, n :: rest = requested a :: tail → b = a := by
    rintro tail htail
    obtain ⟨rfl,-⟩ := List.cons.inj htail
    obtain hn | hn := hn
    · exact (Note.requested.inj hn).symm
    · cases hn
  obtain ⟨mid,rfl,hmid⟩ | ⟨mid,rfl,hmid⟩ := List.append_eq_append_iff.mp heq
  · cases mid with
    | nil => exact hsame hmid
    | cons c mid =>
      -- the stored value was requested after `b`
      obtain ⟨-,rfl⟩ := List.cons.inj hmid
      exact absurd ((List.Sublist.cons_cons _ hstored).trans (List.sublist_append_right _ _)) (hnone a)
  · cases mid with
    | nil => exact hsame hmid.symm
    | cons c mid =>
      obtain ⟨-,rfl⟩ := List.cons.inj hmid
      exact absurd hn (not_carries hlast hrest' (List.mem_append_right _ List.mem_cons_self))

end Recovery
