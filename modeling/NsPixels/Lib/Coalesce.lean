import Mathlib.Data.List.Sort
import Mathlib.Order.Basic

/-!
# Merging runs of equal keys

`coalesce` merges each run of adjacent elements with one key into a single
element. On a list sorted by key the result is the strictly sorted list of the
per-key merges, so it depends on the list only up to permutation.
-/

namespace Coalesce

variable {α κ : Type*} [LinearOrder κ] (key : α → κ) (merge : α → α → α)

/-- Coalesce with the group in progress accumulated in `acc`. -/
def coalesceFrom (acc : α) : List α → List α
  | [] => [acc]
  | b :: l =>
    if key b = key acc then coalesceFrom (merge acc b) l else acc :: coalesceFrom b l

/-- Merge every run of adjacent elements with equal keys. -/
def coalesce : List α → List α
  | [] => []
  | a :: l => coalesceFrom key merge a l

/-- The merge of all elements of `l` that have key `k`, if there is one. -/
def mergeAt (k : κ) (l : List α) : Option α :=
  match l.filter fun a => key a = k with
  | [] => none
  | b :: t => some (t.foldl merge b)

variable {key}

theorem mergeAt_isSome_iff {k : κ} {l : List α} :
    (mergeAt key merge k l).isSome ↔ ∃ a ∈ l, key a = k := by
  unfold mergeAt
  split
  · next h =>
    rw [List.filter_eq_nil_iff] at h
    simpa using h
  · next b t h =>
    have hb : b ∈ l.filter fun a => key a = k := h ▸ List.mem_cons_self
    rw [List.mem_filter] at hb
    exact iff_of_true rfl ⟨b,hb.1,by simpa using hb.2⟩

variable {merge}

theorem mergeAt_eq_some_iff {k : κ} {l : List α} {a : α} :
    mergeAt key merge k l = some a ↔
      ∃ b t, (l.filter fun x => key x = k) = b :: t ∧ t.foldl merge b = a := by
  unfold mergeAt
  split
  · next h => simp [h]
  · next b t h => simp [h]

section Sorted

variable (hm : ∀ a b, key (merge a b) = key a)
include hm

omit [LinearOrder κ] in
theorem key_foldl_merge (b : α) (t : List α) : key (t.foldl merge b) = key b := by
  induction t generalizing b with
  | nil => rfl
  | cons x t ih => rw [List.foldl_cons,ih,hm]

/-- The merged head takes the place of the first two. -/
theorem pairwise_merge {acc b : α} {l : List α}
    (hs : (acc :: b :: l).Pairwise fun x y => key x ≤ key y) :
    (merge acc b :: l).Pairwise fun x y => key x ≤ key y := by
  rw [List.pairwise_cons,List.pairwise_cons] at hs
  rw [List.pairwise_cons]
  refine ⟨fun y hy => ?_,hs.2.2⟩
  rw [hm]
  exact hs.1 y (List.mem_cons_of_mem b hy)

omit hm in
theorem key_head_le {b x : α} {l : List α} (hs : (b :: l).Pairwise fun x y => key x ≤ key y)
    (hx : x ∈ b :: l) : key b ≤ key x := by
  obtain rfl | hx := List.mem_cons.mp hx
  · exact le_rfl
  · exact (List.pairwise_cons.mp hs).1 x hx

/-- On a sorted list the coalesced elements are exactly the per-key merges. -/
theorem mem_coalesceFrom_iff {acc a : α} {l : List α}
    (hs : (acc :: l).Pairwise fun x y => key x ≤ key y) :
    a ∈ coalesceFrom key merge acc l ↔ mergeAt key merge (key a) (acc :: l) = some a := by
  induction l generalizing acc with
  | nil =>
    rw [coalesceFrom,List.mem_singleton,mergeAt_eq_some_iff]
    by_cases hk : key acc = key a
    · simp [hk,eq_comm]
    · simp only [hk,List.filter_cons,decide_false,List.filter_nil]
      exact iff_of_false (fun h => hk (h ▸ rfl)) (by simp)
  | cons b l ih =>
    have hmerge := pairwise_merge hm hs
    rw [List.pairwise_cons] at hs
    obtain ⟨hle,hs⟩ := hs
    rw [coalesceFrom]
    split
    · next hb =>
      rw [ih hmerge,mergeAt_eq_some_iff,mergeAt_eq_some_iff]
      by_cases hk : key acc = key a
      · simp [hm,hk,hb]
      · simp [hm,hk,hb]
    · next hb =>
      have hlt : ∀ x ∈ b :: l, key x ≠ key acc := by
        intro x hx he
        exact hb (le_antisymm (he ▸ key_head_le hs hx) (hle b List.mem_cons_self))
      rw [List.mem_cons,ih hs,mergeAt_eq_some_iff,mergeAt_eq_some_iff]
      by_cases hk : key acc = key a
      · have hnil : (b :: l).filter (fun x => key x = key a) = [] := by
          rw [List.filter_eq_nil_iff]
          intro x hx
          simpa [← hk] using hlt x hx
        have hacc : (acc :: b :: l).filter (fun x => key x = key a) = [acc] := by
          rw [List.filter_cons_of_pos (by simpa using hk),hnil]
        rw [hnil,hacc]
        simp [eq_comm]
      · have hacc : (acc :: b :: l).filter (fun x => key x = key a) =
            (b :: l).filter fun x => key x = key a :=
          List.filter_cons_of_neg (by simpa using hk)
        rw [hacc]
        exact or_iff_right fun h => hk (h ▸ rfl)

theorem mem_coalesce_iff {a : α} {l : List α} (hs : l.Pairwise fun x y => key x ≤ key y) :
    a ∈ coalesce key merge l ↔ mergeAt key merge (key a) l = some a := by
  cases l with
  | nil => simp [coalesce,mergeAt]
  | cons b l => exact mem_coalesceFrom_iff hm hs

/-- The keys left are the keys that were there. -/
theorem mem_keys_coalesce_iff {k : κ} {l : List α} (hs : l.Pairwise fun x y => key x ≤ key y) :
    (∃ a ∈ coalesce key merge l, key a = k) ↔ ∃ a ∈ l, key a = k := by
  refine Iff.trans ?_ (mergeAt_isSome_iff merge)
  constructor
  · rintro ⟨a,ha,rfl⟩
    rw [(mem_coalesce_iff hm hs).mp ha]
    rfl
  · intro h
    obtain ⟨a,ha⟩ := Option.isSome_iff_exists.mp h
    obtain ⟨b,t,hf,rfl⟩ := mergeAt_eq_some_iff.mp ha
    have hb : b ∈ l.filter fun x => key x = k := hf ▸ List.mem_cons_self
    have hk : key (t.foldl merge b) = k := by
      rw [key_foldl_merge hm]
      simpa using (List.mem_filter.mp hb).2
    exact ⟨_,(mem_coalesce_iff hm hs).mpr (hk ▸ ha),hk⟩

theorem coalesceFrom_strict {acc : α} {l : List α}
    (hs : (acc :: l).Pairwise fun x y => key x ≤ key y) :
    (coalesceFrom key merge acc l).Pairwise fun x y => key x < key y := by
  induction l generalizing acc with
  | nil => exact List.pairwise_singleton _ _
  | cons b l ih =>
    have hmerge := pairwise_merge hm hs
    rw [List.pairwise_cons] at hs
    obtain ⟨hle,hs⟩ := hs
    rw [coalesceFrom]
    split
    · exact ih hmerge
    · next hb =>
      rw [List.pairwise_cons]
      refine ⟨fun y hy => ?_,ih hs⟩
      obtain ⟨x,hx,hxy⟩ := (mem_keys_coalesce_iff hm hs).mp
        ⟨y,(show y ∈ coalesce key merge (b :: l) from hy),rfl⟩
      exact hxy ▸ lt_of_lt_of_le
        (lt_of_le_of_ne (hle b List.mem_cons_self) (Ne.symm hb)) (key_head_le hs hx)

/-- Coalescing a sorted list leaves every key at most once, in order. -/
theorem coalesce_strict {l : List α} (hs : l.Pairwise fun x y => key x ≤ key y) :
    (coalesce key merge l).Pairwise fun x y => key x < key y := by
  cases l with
  | nil => exact List.Pairwise.nil
  | cons b l => exact coalesceFrom_strict hm hs

/-- Every observation that turns merges into an operation of its own reads off a
coalesced element as that operation over the elements of its key. -/
theorem observe_of_mem_coalesce {μ : Type*} (op : μ → μ → μ) (e : μ) (f : α → μ)
    [Std.Associative op] [Std.LawfulRightIdentity op e]
    (hf : ∀ a b, f (merge a b) = op (f a) (f b)) {a : α} {l : List α}
    (hs : l.Pairwise fun x y => key x ≤ key y) (ha : a ∈ coalesce key merge l) :
    f a = (l.filter fun x => key x = key a).foldr (fun x m => op (f x) m) e := by
  obtain ⟨b,t,hl,hbt⟩ := mergeAt_eq_some_iff.mp ((mem_coalesce_iff hm hs).mp ha)
  rw [hl,← hbt]
  clear hl hbt
  induction t generalizing b with
  | nil => exact (show op (f b) e = f b from Std.LawfulRightIdentity.right_id _).symm
  | cons x t ih =>
    have hassoc : ∀ x y z : μ, op (op x y) z = op x (op y z) := Std.Associative.assoc
    rw [List.foldl_cons,ih,List.foldr_cons,List.foldr_cons,List.foldr_cons,hf,hassoc]

end Sorted

/-- Two strictly sorted lists with the same elements are equal. -/
theorem eq_of_strict_of_mem_iff {l₁ l₂ : List α} (h₁ : l₁.Pairwise fun x y => key x < key y)
    (h₂ : l₂.Pairwise fun x y => key x < key y) (h : ∀ a, a ∈ l₁ ↔ a ∈ l₂) : l₁ = l₂ := by
  have hn : ∀ {l : List α}, l.Pairwise (fun x y => key x < key y) → l.Nodup :=
    fun hl => hl.imp fun hlt he => absurd (he ▸ hlt) (lt_irrefl _)
  refine ((List.perm_ext_iff_of_nodup (hn h₁) (hn h₂)).mpr h).eq_of_pairwise ?_ h₁ h₂
  intro a b _ _ hab hba
  exact absurd (hab.trans hba) (lt_irrefl _)

end Coalesce
