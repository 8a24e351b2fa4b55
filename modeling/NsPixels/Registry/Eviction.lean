import Mathlib.Logic.Function.Iterate
import NsPixels.Registry

/-!
# Eviction

A call of `evictOlderThan` collects at most `evictBatch` stale numbers and removes
them. Removal reorders the map, so calls are compared by the rows they keep.
-/

namespace NsPixels.Registry

open FixedCap

/-- Whether an entry was last seen before `cutoff`. -/
def isStale (cutoff : ℕ) (e : UInt32 × TrainState) : Bool := e.2.lastSeen < cutoff

/-- The stale numbers in iteration order. -/
def stale (r : Registry) (cutoff : ℕ) : List UInt32 :=
  (r.map.entries.filter (isStale cutoff)).map Prod.fst

/-- The pass collects the first stale numbers that still fit. -/
theorem toList_collectStale (cutoff : ℕ) (es : List (UInt32 × TrainState))
    (v : Vec UInt32 evictBatch) :
    (collectStale cutoff es v).toList =
      v.toList ++ ((es.filter (isStale cutoff)).map Prod.fst).take (evictBatch - v.len) := by
  induction es generalizing v with
  | nil => simp [collectStale]
  | cons e es ih =>
    obtain ⟨k,s⟩ := e
    rw [collectStale]
    by_cases hs : s.lastSeen < cutoff
    · rw [if_pos hs,List.filter_cons_of_pos (by simpa [isStale] using hs),List.map_cons]
      by_cases hv : v.len < evictBatch
      · obtain ⟨w,hw,hl⟩ := Vec.exists_push_eq_some hv k
        have hlen : w.len = v.len + 1 := by rw [Vec.len,hl]; simp [Vec.len]
        obtain ⟨j,hj⟩ : ∃ j, evictBatch - v.len = j + 1 := ⟨evictBatch - v.len - 1,by omega⟩
        simp only [hw]
        rw [ih,hl,hlen,hj,List.take_succ_cons,List.append_assoc,List.singleton_append,
          show evictBatch - (v.len + 1) = j by omega]
      · have hpush : v.push k = none := by rw [Vec.push,dif_neg hv]
        simp only [hpush]
        rw [show evictBatch - v.len = 0 by omega,List.take_zero,List.append_nil]
    · rw [if_neg hs,List.filter_cons_of_neg (by simpa [isStale] using hs),ih]

/-- The numbers one call removes. -/
theorem toList_collectStale_empty (r : Registry) (cutoff : ℕ) :
    (collectStale cutoff r.map.entries Vec.empty).toList = (r.stale cutoff).take evictBatch := by
  rw [toList_collectStale]
  rfl

theorem stale_nodup (r : Registry) (cutoff : ℕ) : (r.stale cutoff).Nodup :=
  r.map.nodup.sublist (List.filter_sublist.map Prod.fst)

theorem mem_stale_iff {r : Registry} {cutoff : ℕ} {n : UInt32} :
    n ∈ r.stale cutoff ↔ ∃ s, r.get n = some s ∧ s.lastSeen < cutoff := by
  rw [stale,List.mem_map]
  constructor
  · rintro ⟨⟨k,s⟩,he,rfl⟩
    rw [List.mem_filter] at he
    exact ⟨s,get_eq_some_iff.mpr he.1,by simpa [isStale] using he.2⟩
  · rintro ⟨s,hs,hlt⟩
    exact ⟨(n,s),List.mem_filter.mpr ⟨get_eq_some_iff.mp hs,by simpa [isStale] using hlt⟩,rfl⟩

theorem stale_perm {r' : Registry} {l : List (UInt32 × TrainState)}
    (h : r'.map.entries.Perm l) (cutoff : ℕ) :
    (r'.stale cutoff).Perm ((l.filter (isStale cutoff)).map Prod.fst) :=
  (h.filter _).map _

/-! ### One call -/

theorem evictOlderThan_count (r : Registry) (cutoff : ℕ) :
    (r.evictOlderThan cutoff).2 = min evictBatch (r.stale cutoff).length := by
  rw [← List.length_take,← toList_collectStale_empty]
  rfl

/-- The entries of all other numbers remain, in some order. -/
theorem evictOlderThan_perm (r : Registry) (cutoff : ℕ) :
    (r.evictOlderThan cutoff).1.map.entries.Perm
      (r.map.entries.filter fun e => e.1 ∉ (r.stale cutoff).take evictBatch) := by
  rw [← toList_collectStale_empty]
  exact IndexMap.foldl_remove_perm _ _

theorem filter_notMem_take {α : Type*} [DecidableEq α] {l : List α} (h : l.Nodup) (k : ℕ) :
    (l.filter fun a => a ∉ l.take k) = l.drop k := by
  have hdis : ∀ a ∈ l.drop k, a ∉ l.take k :=
    fun a hd ht => List.disjoint_take_drop h (Nat.le_refl k) ht hd
  conv_lhs => rw [← List.take_append_drop k l,List.filter_append]
  rw [List.filter_eq_nil_iff.mpr (by simp),List.filter_eq_self.mpr (by simpa using hdis),
    List.nil_append]

/-- What one call leaves stale is what it could not collect. -/
theorem stale_evictOlderThan (r : Registry) (cutoff : ℕ) :
    ((r.evictOlderThan cutoff).1.stale cutoff).Perm ((r.stale cutoff).drop evictBatch) := by
  refine (stale_perm (r.evictOlderThan_perm cutoff) cutoff).trans (List.Perm.of_eq ?_)
  rw [← filter_notMem_take (r.stale_nodup cutoff),stale,List.filter_map,List.filter_filter,
    List.filter_filter]
  congr 2
  funext e
  exact Bool.and_comm _ _

/-- One call removes as many entries as it reports. -/
theorem evictOlderThan_len (r : Registry) (cutoff : ℕ) :
    (r.evictOlderThan cutoff).1.map.len + (r.evictOlderThan cutoff).2 = r.map.len := by
  have hgone : ((r.map.entries.map Prod.fst).filter (· ∈ (r.stale cutoff).take evictBatch)).Perm
      ((r.stale cutoff).take evictBatch) := by
    refine (List.perm_ext_iff_of_nodup (r.map.nodup.filter _)
      ((r.stale_nodup cutoff).sublist (List.take_sublist _ _))).mpr fun n => ?_
    rw [List.mem_filter,decide_eq_true_eq,and_iff_right_iff_imp]
    intro hn
    obtain ⟨s,hs,_⟩ := mem_stale_iff.mp (List.mem_of_mem_take hn)
    exact List.mem_map_of_mem (get_eq_some_iff.mp hs)
  have hsplit := List.length_eq_length_filter_add
    (l := r.map.entries) (fun e => decide (e.1 ∈ (r.stale cutoff).take evictBatch))
  have hlen := hgone.length_eq
  rw [List.filter_map,List.length_map,List.length_take] at hlen
  rw [evictOlderThan_count,IndexMap.len,IndexMap.len,(r.evictOlderThan_perm cutoff).length_eq,
    hsplit,← hlen,Nat.add_comm]
  congr 3
  funext e
  simp

theorem get_evictOlderThan_stale (r : Registry) (cutoff : ℕ) (n : UInt32) :
    (r.evictOlderThan cutoff).1.get n =
      if n ∈ (r.stale cutoff).take evictBatch then none else r.get n := by
  rw [get_evictOlderThan,toList_collectStale_empty]

/-! ### Repeated calls -/

/-- The registry after `k` calls with the same cutoff. -/
def evicted (r : Registry) (cutoff k : ℕ) : Registry := (fun r => (r.evictOlderThan cutoff).1)^[k] r

theorem evicted_succ (r : Registry) (cutoff k : ℕ) :
    r.evicted cutoff (k + 1) = ((r.evicted cutoff k).evictOlderThan cutoff).1 :=
  Function.iterate_succ_apply' _ k r

theorem length_stale_evicted (r : Registry) (cutoff k : ℕ) :
    ((r.evicted cutoff k).stale cutoff).length = (r.stale cutoff).length - k * evictBatch := by
  induction k with
  | zero => simp [evicted]
  | succ k ih =>
    rw [evicted_succ,(stale_evictOlderThan _ cutoff).length_eq,List.length_drop,ih]
    rw [Nat.succ_mul]
    omega

/-- Calls touch nothing that is not stale. -/
theorem get_evicted_of_fresh {r : Registry} {cutoff : ℕ} {n : UInt32} (h : n ∉ r.stale cutoff)
    (k : ℕ) : (r.evicted cutoff k).get n = r.get n := by
  induction k with
  | zero => rfl
  | succ k ih =>
    have hk : n ∉ (r.evicted cutoff k).stale cutoff := by rwa [mem_stale_iff,ih,← mem_stale_iff]
    rw [evicted_succ,get_evictOlderThan_stale,if_neg fun hn => hk (List.mem_of_mem_take hn),ih]

/-- A row that is still there is the row that was there. -/
theorem get_of_get_evicted {r : Registry} {cutoff k : ℕ} {n : UInt32} {s : TrainState}
    (h : (r.evicted cutoff k).get n = some s) : r.get n = some s := by
  induction k with
  | zero => exact h
  | succ k ih =>
    rw [evicted_succ,get_evictOlderThan_stale] at h
    split at h
    · cases h
    · exact ih h

/-- A call removes exactly as many entries as fit its batch, all of them stale,
reports their number and keeps every other row. After as many calls as the stale
entries fill batches, only the fresh rows are left and calls report 0. -/
theorem eviction_exact (r : Registry) (cutoff : ℕ) :
    ((r.evictOlderThan cutoff).2 = min evictBatch (r.stale cutoff).length ∧
      (r.evictOlderThan cutoff).1.map.len + (r.evictOlderThan cutoff).2 = r.map.len ∧
      ∃ gone : List UInt32, gone.Nodup ∧ gone.length = (r.evictOlderThan cutoff).2 ∧
        (∀ n ∈ gone, ∃ s, r.get n = some s ∧ s.lastSeen < cutoff) ∧
        ∀ n, (r.evictOlderThan cutoff).1.get n = if n ∈ gone then none else r.get n) ∧
    ∀ k, ((r.stale cutoff).length + (evictBatch - 1)) / evictBatch ≤ k →
      ((r.evicted cutoff k).evictOlderThan cutoff).2 = 0 ∧
      ∀ n s, (r.evicted cutoff k).get n = some s ↔ r.get n = some s ∧ cutoff ≤ s.lastSeen := by
  refine ⟨⟨r.evictOlderThan_count cutoff,r.evictOlderThan_len cutoff,
    (r.stale cutoff).take evictBatch,?_,?_,?_,r.get_evictOlderThan_stale cutoff⟩,fun k hk => ?_⟩
  · exact (r.stale_nodup cutoff).sublist (List.take_sublist _ _)
  · rw [List.length_take,evictOlderThan_count]
  · exact fun n hn => mem_stale_iff.mp (List.mem_of_mem_take hn)
  · have hnil : (r.evicted cutoff k).stale cutoff = [] := by
      apply List.eq_nil_of_length_eq_zero
      rw [length_stale_evicted]
      rw [show evictBatch = 64 from rfl] at hk ⊢
      omega
    refine ⟨by rw [evictOlderThan_count,hnil]; rfl,fun n s => ⟨fun h => ?_,fun ⟨h,hs⟩ => ?_⟩⟩
    · refine ⟨get_of_get_evicted h,?_⟩
      by_contra hlt
      have := mem_stale_iff.mpr ⟨s,h,not_le.mp hlt⟩
      rw [hnil] at this
      cases this
    · rw [get_evicted_of_fresh _ k,h]
      rw [mem_stale_iff]
      rintro ⟨s',hs',hlt⟩
      rw [h,Option.some.injEq] at hs'
      subst hs'
      omega

end NsPixels.Registry
