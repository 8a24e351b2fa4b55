import Mathlib.Data.List.Basic

/-!
# Prefix codes

Words none of which is the beginning of another. A message of them is read in one way
only.
-/

namespace PrefixCode

variable {α β : Type*} {enc : α → List β} {S : α → Prop}

/-- The words of the elements of `S`: after a common beginning, the element and the rest
are the same. -/
def PrefixFree (enc : α → List β) (S : α → Prop) : Prop :=
  ∀ a b s t, S a → S b → enc a ++ s = enc b ++ t → a = b ∧ s = t

/-- Two lists split at their first `sep`. -/
theorem eq_of_append_sep {sep : β} {u v s t : List β} (hu : sep ∉ u) (hv : sep ∉ v)
    (heq : u ++ sep :: s = v ++ sep :: t) : u = v ∧ s = t := by
  induction u generalizing v with
  | nil =>
    cases v with
    | nil => exact ⟨rfl,(List.cons.inj heq).2⟩
    | cons b v => exact absurd ((List.cons.inj heq).1 ▸ List.mem_cons_self) hv
  | cons a u ih =>
    cases v with
    | nil => exact absurd ((List.cons.inj heq).1 ▸ List.mem_cons_self) hu
    | cons b v =>
      obtain ⟨rfl,htail⟩ := List.cons.inj heq
      obtain ⟨rfl,hst⟩ := ih (fun h => hu (List.mem_cons_of_mem a h))
        (fun h => hv (List.mem_cons_of_mem a h)) htail
      exact ⟨rfl,hst⟩

/-- Words that differ only in a field ended by `sep`. -/
theorem PrefixFree.of_field {f : α → List β} {before after : List β} {sep : β}
    (henc : ∀ a, S a → enc a = before ++ (f a ++ sep :: after)) (hsep : ∀ a, S a → sep ∉ f a)
    (hinj : ∀ a b, S a → S b → f a = f b → a = b) : PrefixFree enc S := by
  intro a b s t ha hb heq
  simp only [henc a ha,henc b hb,List.append_assoc,List.cons_append,
    List.append_cancel_left_eq] at heq
  obtain ⟨hf,hst⟩ := eq_of_append_sep (hsep a ha) (hsep b hb) heq
  exact ⟨hinj a b ha hb hf,List.append_cancel_left hst⟩

/-- A message determines its elements, if no word is empty. -/
theorem PrefixFree.eq_of_flatMap (h : PrefixFree enc S) (hne : ∀ a, S a → enc a ≠ []) {l l' : List α}
    (hl : ∀ a ∈ l, S a) (hl' : ∀ a ∈ l', S a) (heq : l.flatMap enc = l'.flatMap enc) : l = l' := by
  induction l generalizing l' with
  | nil =>
    cases l' with
    | nil => rfl
    | cons b l' =>
      rw [List.flatMap_nil,List.flatMap_cons] at heq
      exact absurd (List.append_eq_nil_iff.mp heq.symm).1 (hne b (hl' b List.mem_cons_self))
  | cons a l ih =>
    cases l' with
    | nil =>
      rw [List.flatMap_nil,List.flatMap_cons] at heq
      exact absurd (List.append_eq_nil_iff.mp heq).1 (hne a (hl a List.mem_cons_self))
    | cons b l' =>
      rw [List.flatMap_cons,List.flatMap_cons] at heq
      obtain ⟨rfl,hrest⟩ := h a b _ _ (hl a List.mem_cons_self) (hl' b List.mem_cons_self) heq
      rw [ih (fun c hc => hl c (List.mem_cons_of_mem a hc))
        (fun c hc => hl' c (List.mem_cons_of_mem a hc)) hrest]

end PrefixCode
