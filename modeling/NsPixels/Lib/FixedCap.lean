import Mathlib.Data.List.Basic
import Mathlib.Data.List.Nodup
import Mathlib.Data.List.Perm.Basic

/-!
# Containers of fixed capacity

A vector and an insertion-ordered map whose capacity is part of the type. Both
carry their bound as a field, so a value over capacity cannot be built. The
operations that can fail for lack of room return `Option`.
-/

namespace FixedCap

variable {α κ ν : Type*} {N : ℕ}

/-- A vector of at most `N` elements. -/
@[ext] structure Vec (α : Type*) (N : ℕ) where
  toList : List α
  length_le : toList.length ≤ N
deriving DecidableEq

namespace Vec

/-- The vector without elements. -/
def empty : Vec α N := ⟨[],Nat.zero_le N⟩

/-- Drop all elements. -/
def clear (_ : Vec α N) : Vec α N := empty

/-- Number of elements held. -/
def len (v : Vec α N) : ℕ := v.toList.length

/-- Append one element; `none` when the vector is full. -/
def push (v : Vec α N) (a : α) : Option (Vec α N) :=
  if h : v.len < N then
    some ⟨v.toList ++ [a],by simpa [len,Nat.succ_le_iff] using h⟩
  else none

/-- Append one element and forget the error of a full vector. -/
def pushOrDrop (v : Vec α N) (a : α) : Vec α N := (v.push a).getD v

/-- All of a list at once; `none` when it does not fit. -/
def ofList? (l : List α) : Option (Vec α N) :=
  if h : l.length ≤ N then some ⟨l,h⟩ else none

/-- Append a list, all of it or nothing. -/
def extendOrDrop (v : Vec α N) (l : List α) : Vec α N := (ofList? (v.toList ++ l)).getD v

/-- Change every element in place. -/
def map {β : Type*} (v : Vec α N) (f : α → β) : Vec β N :=
  ⟨v.toList.map f,by simpa using v.length_le⟩

/-- Take the first element. -/
def popFront : Vec α N → Option (α × Vec α N)
  | ⟨[],_⟩ => none
  | ⟨a :: l,h⟩ => some (a,⟨l,Nat.le_of_succ_le h⟩)

@[simp] theorem toList_empty : (empty : Vec α N).toList = [] := rfl

@[simp] theorem toList_clear (v : Vec α N) : v.clear.toList = [] := rfl

@[simp] theorem toList_map {β : Type*} (v : Vec α N) (f : α → β) :
    (v.map f).toList = v.toList.map f := rfl

@[simp] theorem len_empty : (empty : Vec α N).len = 0 := rfl

theorem len_le (v : Vec α N) : v.len ≤ N := v.length_le

theorem exists_push_eq_some {v : Vec α N} (h : v.len < N) (a : α) :
    ∃ w, v.push a = some w ∧ w.toList = v.toList ++ [a] := by
  rw [push,dif_pos h]
  exact ⟨_,rfl,rfl⟩

theorem toList_pushOrDrop (v : Vec α N) (a : α) :
    (v.pushOrDrop a).toList = if v.len < N then v.toList ++ [a] else v.toList := by
  unfold pushOrDrop push
  split <;> rfl

theorem popFront_eq_some_iff {v w : Vec α N} {a : α} :
    v.popFront = some (a,w) ↔ v.toList = a :: w.toList := by
  obtain ⟨l,h⟩ := v
  cases l with
  | nil => simp [popFront]
  | cons b l => simp [popFront,Vec.ext_iff]

theorem ofList?_eq_some_iff {l : List α} {v : Vec α N} :
    ofList? l = some v ↔ v.toList = l := by
  unfold ofList?
  split
  · rw [Option.some.injEq]
    exact ⟨fun he => he ▸ rfl,fun he => Vec.ext he.symm⟩
  · next h => exact iff_of_false (by simp) (fun he => h (he ▸ v.length_le))

end Vec

/-! ### Swap removal from a list -/

/-- Remove the element at `i` by moving the last element into its place. -/
def swapRemove (l : List α) (i : ℕ) : List α :=
  match l.getLast? with
  | none => []
  | some z => (l.set i z).dropLast

theorem swapRemove_concat (l : List α) (z : α) (i : ℕ) :
    swapRemove (l ++ [z]) i = ((l ++ [z]).set i z).dropLast := by
  simp [swapRemove]

/-- Swap removal loses exactly the element at `i`. -/
theorem swapRemove_perm {l : List α} {i : ℕ} (h : i < l.length) :
    (swapRemove l i).Perm (l.eraseIdx i) := by
  obtain rfl | ⟨init,z,rfl⟩ := List.eq_nil_or_concat l
  · simp at h
  rw [List.concat_eq_append] at h ⊢
  rw [swapRemove_concat]
  rw [List.length_append,List.length_singleton] at h
  by_cases hi : i = init.length
  · subst hi
    rw [List.set_append_right _ _ (Nat.le_refl _),List.eraseIdx_append_of_length_le (Nat.le_refl _)]
    simp
  · have hlt : i < init.length := by omega
    rw [List.set_append_left _ _ hlt,List.dropLast_concat,
      List.eraseIdx_append_of_lt_length hlt]
    exact (List.set_perm_cons_eraseIdx hlt z).trans (List.perm_append_singleton z _).symm

/-! ### Insertion-ordered maps -/

/-- A map of at most `N` keys that iterates in the order of its entry list. -/
@[ext] structure IndexMap (κ ν : Type*) (N : ℕ) where
  entries : List (κ × ν)
  nodup : (entries.map Prod.fst).Nodup
  length_le : entries.length ≤ N

namespace IndexMap

/-- The map without entries. -/
def empty : IndexMap κ ν N := ⟨[],List.nodup_nil,Nat.zero_le N⟩

@[simp] theorem entries_empty : (empty : IndexMap κ ν N).entries = [] := rfl

/-- Number of entries. -/
def len (m : IndexMap κ ν N) : ℕ := m.entries.length

variable [DecidableEq κ]

/-- The value stored under `k`. -/
def get (m : IndexMap κ ν N) (k : κ) : Option ν :=
  (m.entries.find? fun e => e.1 = k).map Prod.snd

/-- Overwrite the value stored under `k`, if there is one, in place. -/
def modify (m : IndexMap κ ν N) (k : κ) (f : ν → ν) : IndexMap κ ν N where
  entries := m.entries.map fun e => if e.1 = k then (e.1,f e.2) else e
  nodup := by
    have he : (Prod.fst ∘ fun e : κ × ν => if e.1 = k then (e.1,f e.2) else e) = Prod.fst := by
      funext e
      simp only [Function.comp_apply]
      split <;> rfl
    rw [List.map_map,he]
    exact m.nodup
  length_le := by simpa using m.length_le

/-- Store `v` under `k`: in place when the key is there, else at the end of the
iteration order. `none` when the key is new and the map is full. -/
def insert (m : IndexMap κ ν N) (k : κ) (v : ν) : Option (IndexMap κ ν N) :=
  if hk : k ∈ m.entries.map Prod.fst then some (m.modify k fun _ => v)
  else if hN : m.entries.length < N then
    some
      { entries := m.entries ++ [(k,v)]
        nodup := by
          rw [List.map_append,List.nodup_append']
          exact ⟨m.nodup,by simp,by simpa using hk⟩
        length_le := by simpa [Nat.succ_le_iff] using hN }
  else none

omit [DecidableEq κ] in
theorem swapRemove_keys_nodup {l : List (κ × ν)} {i : ℕ} (h : (l.map Prod.fst).Nodup)
    (hi : i < l.length) : ((swapRemove l i).map Prod.fst).Nodup := by
  rw [((swapRemove_perm hi).map Prod.fst).nodup_iff]
  exact h.sublist ((List.eraseIdx_sublist l i).map Prod.fst)

theorem eraseIdx_findIdx_eq_filter {k : κ} {l : List (κ × ν)} (h : (l.map Prod.fst).Nodup) :
    l.eraseIdx (l.findIdx fun e => e.1 = k) = l.filter fun e => e.1 ≠ k := by
  induction l with
  | nil => rfl
  | cons e l ih =>
    rw [List.map_cons,List.nodup_cons] at h
    by_cases hk : e.1 = k
    · have hall : ∀ x ∈ l, x.1 ≠ k := by
        intro x hx hxk
        exact h.1 (hk.trans hxk.symm ▸ List.mem_map_of_mem hx)
      rw [List.findIdx_cons,List.filter_cons_of_neg (by simpa using hk),
        List.filter_eq_self.mpr (by simpa using hall)]
      simp [hk]
    · rw [List.findIdx_cons,List.filter_cons_of_pos (by simpa using hk),← ih h.2]
      simp [hk]

/-- Remove the entry of `k`, if there is one; the last entry takes its place. -/
def remove (m : IndexMap κ ν N) (k : κ) : IndexMap κ ν N :=
  if h : m.entries.findIdx (fun e => e.1 = k) < m.entries.length then
    { entries := swapRemove m.entries (m.entries.findIdx fun e => e.1 = k)
      nodup := swapRemove_keys_nodup m.nodup h
      length_le := by
        rw [(swapRemove_perm h).length_eq]
        exact Nat.le_trans (List.length_eraseIdx_le _ _) m.length_le }
  else m

variable {m : IndexMap κ ν N} {k k' : κ} {v : ν}

/-- Lookup is membership: keys are distinct. -/
theorem get_eq_some_iff : m.get k = some v ↔ (k,v) ∈ m.entries := by
  unfold get
  constructor
  · intro h
    obtain ⟨e,he,rfl⟩ := Option.map_eq_some_iff.mp h
    have hk : e.1 = k := by simpa using List.find?_some he
    exact hk ▸ List.mem_of_find?_eq_some he
  · intro h
    obtain ⟨e,he⟩ : ∃ e, m.entries.find? (fun e => e.1 = k) = some e :=
      Option.isSome_iff_exists.mp (List.find?_isSome.mpr ⟨(k,v),h,by simp⟩)
    have hk : e.1 = k := by simpa using List.find?_some he
    have hev : e = (k,v) :=
      List.inj_on_of_nodup_map m.nodup (List.mem_of_find?_eq_some he) h hk
    rw [he,hev]
    rfl

theorem get_eq_none_iff : m.get k = none ↔ k ∉ m.entries.map Prod.fst := by
  rw [Option.eq_none_iff_forall_ne_some]
  simp only [ne_eq,get_eq_some_iff,List.mem_map,Prod.exists,exists_and_right,exists_eq_right,
    not_exists]

theorem get_modify (m : IndexMap κ ν N) (k k' : κ) (f : ν → ν) :
    (m.modify k f).get k' = if k' = k then (m.get k').map f else m.get k' := by
  have hfind : (m.modify k f).entries.find? (fun e => e.1 = k') =
      (m.entries.find? fun e => e.1 = k').map fun e => if e.1 = k then (e.1,f e.2) else e := by
    rw [modify,List.find?_map]
    congr 2
    funext e
    simp only [Function.comp_apply]
    split <;> rfl
  unfold get
  rw [hfind]
  cases hf : m.entries.find? fun e => e.1 = k' with
  | none => simp
  | some e =>
    have he : e.1 = k' := by simpa using List.find?_some hf
    subst he
    by_cases hk : e.1 = k <;> simp [hk]

theorem insert_of_get_none (h : m.get k = none) (hN : m.len < N) :
    ∃ m', m.insert k v = some m' ∧ m'.entries = m.entries ++ [(k,v)] := by
  have hk := get_eq_none_iff.mp h
  unfold insert
  rw [dif_neg hk,dif_pos (show m.entries.length < N from hN)]
  exact ⟨_,rfl,rfl⟩

theorem insert_full (h : m.get k = none) (hN : ¬ m.len < N) : m.insert k v = none := by
  have hk := get_eq_none_iff.mp h
  unfold insert
  rw [dif_neg hk,dif_neg (show ¬ m.entries.length < N from hN)]

theorem get_of_entries_append {m' : IndexMap κ ν N} (he : m'.entries = m.entries ++ [(k,v)])
    (k' : κ) : m'.get k' = if k' = k then some v else m.get k' := by
  have hnodup := m'.nodup
  rw [he,List.map_append,List.nodup_append'] at hnodup
  have hk : k ∉ m.entries.map Prod.fst := fun hmem => hnodup.2.2 hmem (by simp)
  ext w
  rw [get_eq_some_iff,he,List.mem_append,List.mem_singleton,Prod.mk.injEq]
  split
  · next hkk =>
    subst hkk
    have : (k',w) ∉ m.entries := fun hmem => hk (List.mem_map.mpr ⟨_,hmem,rfl⟩)
    simp [this,eq_comm]
  · next hkk => simp [hkk,get_eq_some_iff]

/-- Removal keeps exactly the entries of the other keys, in some order. -/
theorem remove_perm (m : IndexMap κ ν N) (k : κ) :
    (m.remove k).entries.Perm (m.entries.filter fun e => e.1 ≠ k) := by
  unfold remove
  split
  · next h =>
    refine (swapRemove_perm h).trans (List.Perm.of_eq ?_)
    exact eraseIdx_findIdx_eq_filter m.nodup
  · next h =>
    have hall : ∀ e ∈ m.entries, e.1 ≠ k := by
      intro e he hk
      exact h (List.findIdx_lt_length_of_exists ⟨e,he,by simpa using hk⟩)
    rw [List.filter_eq_self.mpr (by simpa using hall)]

theorem get_remove (m : IndexMap κ ν N) (k k' : κ) :
    (m.remove k).get k' = if k' = k then none else m.get k' := by
  ext v
  rw [get_eq_some_iff,(m.remove_perm k).mem_iff,List.mem_filter]
  split
  · next hk => simp [hk]
  · next hk => simp [hk,get_eq_some_iff]

/-- A run of removals keeps exactly the entries of the keys it does not name. -/
theorem foldl_remove_perm (ks : List κ) (m : IndexMap κ ν N) :
    (ks.foldl (fun m k => m.remove k) m).entries.Perm (m.entries.filter fun e => e.1 ∉ ks) := by
  induction ks generalizing m with
  | nil => simp
  | cons k ks ih =>
    rw [List.foldl_cons]
    refine (ih (m.remove k)).trans (((m.remove_perm k).filter _).trans (List.Perm.of_eq ?_))
    rw [List.filter_filter]
    congr 1
    funext e
    by_cases hk : e.1 = k <;> by_cases hks : e.1 ∈ ks <;> simp [hk,hks]

end IndexMap

end FixedCap
