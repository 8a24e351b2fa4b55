import NsPixels.Lib.Coalesce
import NsPixels.Registry
import NsPixels.MapMode

/-!
# The cluster snapshot

`rebuildClustersInto` lists every visible train, sorts by pixel and collapses each
run of one pixel in place. The collapse is shown to compute `Coalesce.coalesce`
on the sorted list, and the snapshot is read off from there.
-/

namespace NsPixels

open FixedCap Coalesce

/-- The output buffer of a rebuild. -/
abbrev ClusterVec := Vec PixelData maxTrains

/-- A sort by packed coordinate; equal keys may come out in any order. -/
structure UnstableSort where
  sort : List PixelData → List PixelData
  perm : ∀ l, (sort l).Perm l
  sorted : ∀ l, (sort l).Pairwise fun p q => p.coordKey.toNat ≤ q.coordKey.toNat

/-- A merge sort is such a sort. -/
def mergeSortByKey : UnstableSort where
  sort l := l.mergeSort fun p q => p.coordKey.toNat ≤ q.coordKey.toNat
  perm l := List.mergeSort_perm l _
  sorted l := by
    have h := @List.pairwise_mergeSort PixelData
      (fun p q => decide (p.coordKey.toNat ≤ q.coordKey.toNat))
      (fun a b c hab hbc => by simp only [decide_eq_true_eq] at *; omega)
      (fun a b => by simp only [Bool.or_eq_true,decide_eq_true_eq]; omega) l
    simpa using h

namespace PixelData

/-- Union of the masks of two entries of one pixel. -/
def absorb (w p : PixelData) : PixelData :=
  { w with types := w.types ||| p.types, services := w.services ||| p.services }

/-- The numeric value of the packed coordinate. -/
def key (p : PixelData) : ℕ := p.coordKey.toNat

@[simp] theorem absorb_key (w p : PixelData) : (w.absorb p).key = w.key := rfl

theorem key_eq_iff {p q : PixelData} : p.key = q.key ↔ p.coordKey = q.coordKey :=
  UInt16.toNat_inj

end PixelData

/-! ### The in-place collapse -/

/-- `out[i] = p`; `none` is the panic of an index out of range. -/
def store (out : List PixelData) (i : ℕ) (p : PixelData) : Option (List PixelData) :=
  if i < out.length then some (out.set i p) else none

/-- The inner loop: absorb into `out[write]` the entries from `read` on that share
its pixel. Returns the buffer and the final `read`. -/
def absorbRun (out : List PixelData) (read write : ℕ) : Option (List PixelData × ℕ) :=
  if hread : read < out.length then
    match out[write]? with
    | none => none
    | some w =>
      if out[read].coordKey = w.coordKey then
        absorbRun (out.set write (w.absorb out[read])) (read + 1) write
      else some (out,read)
  else some (out,read)
termination_by out.length - read
decreasing_by
  rw [List.length_set]
  omega

/-- What the inner loop does to the buffer: it keeps the prefix before `write` and
the suffix from the new `read`, and leaves the merged group at `write`. -/
structure Absorbed (out out' : List PixelData) (read read' write : ℕ) (w : PixelData) : Prop where
  length_eq : out'.length = out.length
  le_read : read ≤ read'
  read_le : read' ≤ out.length
  prefix_eq : out'.take write = out.take write
  group : ∃ w', out'[write]? = some w' ∧
    coalesceFrom PixelData.key PixelData.absorb w (out.drop read) =
      w' :: coalesce PixelData.key PixelData.absorb (out'.drop read')

theorem absorbRun_spec {out : List PixelData} {read write : ℕ} {w : PixelData}
    (hwr : write < read) (hread : read ≤ out.length) (hw : out[write]? = some w) :
    ∃ out' read', absorbRun out read write = some (out',read') ∧
      Absorbed out out' read read' write w := by
  induction hn : out.length - read generalizing out read w with
  | zero =>
    have he : read = out.length := by omega
    rw [absorbRun,dif_neg (by omega)]
    refine ⟨out,read,rfl,rfl,Nat.le_refl _,hread,rfl,w,hw,?_⟩
    rw [he,List.drop_length]
    rfl
  | succ n ih =>
    have hlt : read < out.length := by omega
    rw [absorbRun,dif_pos hlt,hw]
    dsimp only
    split
    · next hk =>
      have hset : (out.set write (w.absorb out[read]))[write]? = some (w.absorb out[read]) := by
        rw [List.getElem?_set_self (by omega)]
      obtain ⟨out',read',hrun,h⟩ := ih (show write < read + 1 by omega)
        (by rw [List.length_set]; omega) hset (by rw [List.length_set]; omega)
      refine ⟨out',read',hrun,?_,by have := h.le_read; omega,?_,?_,?_⟩
      · rw [h.length_eq,List.length_set]
      · simpa using h.read_le
      · rw [h.prefix_eq,List.take_set_of_le (Nat.le_refl _)]
      · obtain ⟨w',hw',hgroup⟩ := h.group
        refine ⟨w',hw',?_⟩
        rw [List.drop_eq_getElem_cons hlt,coalesceFrom,if_pos (PixelData.key_eq_iff.mpr hk),
          ← hgroup,List.drop_set_of_lt (by omega)]
    · next hk =>
      refine ⟨out,read,rfl,rfl,Nat.le_refl _,hread,rfl,w,hw,?_⟩
      rw [List.drop_eq_getElem_cons hlt,coalesceFrom,
        if_neg fun he => hk (PixelData.key_eq_iff.mp he),coalesce]

theorem absorbRun_bounds {out out' : List PixelData} {read read' write : ℕ}
    (h : absorbRun out read write = some (out',read')) :
    out'.length = out.length ∧ read ≤ read' := by
  induction hn : out.length - read generalizing out read with
  | zero =>
    rw [absorbRun,dif_neg (by omega)] at h
    cases h
    exact ⟨rfl,Nat.le_refl _⟩
  | succ n ih =>
    rw [absorbRun,dif_pos (by omega)] at h
    split at h
    · cases h
    · next w hw =>
      split at h
      · obtain ⟨hlen,hle⟩ := ih h (by rw [List.length_set]; omega)
        rw [List.length_set] at hlen
        exact ⟨hlen,by omega⟩
      · cases h
        exact ⟨rfl,Nat.le_refl _⟩

/-- `if write != read { out[write] = out[read]; }` -/
def moveDown (out : List PixelData) (p : PixelData) (read write : ℕ) : Option (List PixelData) :=
  if write ≠ read then store out write p else some out

theorem moveDown_length {out out' : List PixelData} {p : PixelData} {read write : ℕ}
    (h : moveDown out p read write = some out') : out'.length = out.length := by
  rw [moveDown,store] at h
  split at h
  · split at h
    · cases h
      exact List.length_set
    · cases h
  · cases h
    rfl

/-- The outer loop: one iteration per run of equal coordinates. Returns the buffer
and the final `write`. -/
def collapseRuns (out : List PixelData) (read write : ℕ) : Option (List PixelData × ℕ) :=
  if hread : read < out.length then
    match hmove : moveDown out out[read] read write with
    | none => none
    | some out₁ =>
      match habsorb : absorbRun out₁ (read + 1) write with
      | none => none
      | some (out₂,read₂) => collapseRuns out₂ read₂ (write + 1)
  else some (out,write)
termination_by out.length - read
decreasing_by
  have hlen₁ := moveDown_length hmove
  have hlen₂ := absorbRun_bounds habsorb
  omega

/-- A move down puts the element at `read` to `write` and keeps the rest. -/
theorem moveDown_spec {out : List PixelData} {read write : ℕ} (hwr : write ≤ read)
    (hread : read < out.length) :
    ∃ out₁, moveDown out out[read] read write = some out₁ ∧ out₁.length = out.length ∧
      out₁[write]? = some out[read] ∧ out₁.take write = out.take write ∧
      out₁.drop (read + 1) = out.drop (read + 1) := by
  rw [moveDown,store]
  split
  · next hne =>
    rw [if_pos (by omega)]
    refine ⟨_,rfl,List.length_set,?_,?_,?_⟩
    · rw [List.getElem?_set_self (by omega)]
    · rw [List.take_set_of_le (Nat.le_refl _)]
    · rw [List.drop_set_of_lt (by omega)]
  · next he =>
    rw [ne_eq,not_not] at he
    subst he
    exact ⟨out,rfl,rfl,List.getElem?_eq_getElem hread,rfl,rfl⟩

/-- The loop invariant: the prefix before `write` is final, and the suffix from
`read` is still to be coalesced; what lies between is dead. -/
theorem collapseRuns_spec {out : List PixelData} {read write : ℕ} (hwr : write ≤ read)
    (hread : read ≤ out.length) :
    ∃ out' write', collapseRuns out read write = some (out',write') ∧
      out'.length = out.length ∧
      out'.take write' = out.take write ++
        coalesce PixelData.key PixelData.absorb (out.drop read) := by
  induction hn : out.length - read using Nat.strongRecOn generalizing out read write with
  | ind n ih =>
    rw [collapseRuns]
    split
    · next hlt =>
      obtain ⟨out₁,hmove,hlen₁,hw₁,htake₁,hdrop₁⟩ := moveDown_spec hwr hlt
      obtain ⟨out₂,read₂,hrun,h⟩ :=
        absorbRun_spec (show write < read + 1 by omega) (by omega) hw₁
      obtain ⟨w',hw',hgroup⟩ := h.group
      have hlen₂ := h.length_eq
      have hle₂ := h.le_read
      obtain ⟨out',write',hrec,hlen',htake'⟩ :=
        ih (out₂.length - read₂) (by omega) (show write + 1 ≤ read₂ by omega)
          (show read₂ ≤ out₂.length by have := h.read_le; omega) rfl
      split
      · next hnone => rw [hmove] at hnone; cases hnone
      · next out₁' hsome =>
        rw [hmove,Option.some.injEq] at hsome
        subst hsome
        split
        · next hnone => rw [hrun] at hnone; cases hnone
        · next out₂' read₂' hsome =>
          rw [hrun,Option.some.injEq,Prod.mk.injEq] at hsome
          obtain ⟨rfl,rfl⟩ := hsome
          refine ⟨out',write',hrec,by omega,?_⟩
          rw [htake',List.take_add_one,hw',h.prefix_eq,htake₁,List.drop_eq_getElem_cons hlt,
            coalesce,← hdrop₁,hgroup]
          simp
    · next hge =>
      refine ⟨out,write,rfl,rfl,?_⟩
      rw [List.drop_eq_nil_of_le (by omega),coalesce,List.append_nil]

/-- The whole collapse leaves the coalesced list as the prefix. -/
theorem collapseRuns_zero (out : List PixelData) :
    ∃ out' write', collapseRuns out 0 0 = some (out',write') ∧
      out'.length = out.length ∧
      out'.take write' = coalesce PixelData.key PixelData.absorb out :=
  collapseRuns_spec (Nat.le_refl 0) (Nat.zero_le _)

namespace Registry

/-- `push_unchecked`: undefined behaviour, here `none`, on a full buffer. -/
def pushUnchecked (out : ClusterVec) (p : PixelData) : Option ClusterVec := out.push p

/-- The collecting loop of a rebuild. -/
def collectVisible (mode : MapMode) : List TrainState → ClusterVec → Option ClusterVec
  | [],out => some out
  | state :: rest,out =>
    match canvasToDisplay state.pixel mode with
    | none => collectVisible mode rest out
    | some display =>
      match pushUnchecked out
        { coordKey := display.asU16, types := state.typ.asBit, services := state.service.asBit } with
      | none => none
      | some out' => collectVisible mode rest out'

/-- Rebuild the snapshot into `out`, replacing its contents. `none` stands for
undefined behaviour or a panic. -/
def rebuildClustersInto (srt : UnstableSort) (r : Registry) (out : ClusterVec) (mode : MapMode) :
    Option ClusterVec :=
  match collectVisible mode (r.map.entries.map Prod.snd) out.clear with
  | none => none
  | some out =>
    match collapseRuns (srt.sort out.toList) 0 0 with
    | none => none
    | some (out',write) => Vec.ofList? (out'.take write)

/-! ### The snapshot a rebuild stands for -/

/-- The packed display pixel of a row, if it is visible. -/
def displayKey (mode : MapMode) (s : TrainState) : Option UInt16 :=
  (canvasToDisplay s.pixel mode).map PixelCoord.asU16

/-- The entry a visible row contributes. -/
def visiblePixel (mode : MapMode) (s : TrainState) : Option PixelData :=
  (displayKey mode s).map fun k =>
    { coordKey := k, types := s.typ.asBit, services := s.service.asBit }

/-- The rows drawn at `k`. -/
def trainsAt (r : Registry) (mode : MapMode) (k : UInt16) : List TrainState :=
  (r.map.entries.map Prod.snd).filter fun s => displayKey mode s = some k

/-- Union of one mask over a list of rows. -/
def maskOf (bit : TrainState → UInt8) (l : List TrainState) : UInt8 :=
  l.foldr (fun s m => bit s ||| m) 0

/-- What the snapshot of a registry is: each occupied display pixel once, in order,
with the union of the bits of exactly the trains drawn there. -/
structure IsSnapshot (r : Registry) (mode : MapMode) (snap : List PixelData) : Prop where
  sorted : snap.Pairwise fun p q => p.coordKey < q.coordKey
  mem_iff : ∀ k, (∃ p ∈ snap, p.coordKey = k) ↔
    ∃ n s, r.get n = some s ∧ displayKey mode s = some k
  types_eq : ∀ p ∈ snap, p.types = maskOf (fun s => s.typ.asBit) (r.trainsAt mode p.coordKey)
  services_eq : ∀ p ∈ snap,
    p.services = maskOf (fun s => s.service.asBit) (r.trainsAt mode p.coordKey)

theorem collectVisible_spec (mode : MapMode) (rows : List TrainState) (out : ClusterVec)
    (hroom : out.len + rows.length ≤ maxTrains) :
    ∃ out', collectVisible mode rows out = some out' ∧
      out'.toList = out.toList ++ rows.filterMap (visiblePixel mode) := by
  induction rows generalizing out with
  | nil => exact ⟨out,rfl,by simp⟩
  | cons s rows ih =>
    rw [List.length_cons] at hroom
    rw [collectVisible]
    cases hd : canvasToDisplay s.pixel mode with
    | none =>
      obtain ⟨out',hrun,hl⟩ := ih out (by omega)
      have hv : visiblePixel mode s = none := by rw [visiblePixel,displayKey,hd]; rfl
      exact ⟨out',hrun,by rw [hl,List.filterMap_cons_none hv]⟩
    | some d =>
      obtain ⟨out₁,hpush,hl₁⟩ := Vec.exists_push_eq_some (v := out) (by omega)
        { coordKey := d.asU16, types := s.typ.asBit, services := s.service.asBit : PixelData }
      have hlen : out₁.len = out.len + 1 := by rw [Vec.len,hl₁,List.length_append]; rfl
      obtain ⟨out',hrun,hl⟩ := ih out₁ (by omega)
      have hv : visiblePixel mode s =
          some { coordKey := d.asU16, types := s.typ.asBit, services := s.service.asBit } := by
        rw [visiblePixel,displayKey,hd]
        rfl
      refine ⟨out',?_,?_⟩
      · simp only [pushUnchecked,hpush,hrun]
      · rw [hl,hl₁,List.filterMap_cons_some hv,List.append_assoc]
        rfl

theorem displayKey_onPanel {mode : MapMode} {s : TrainState} {k : UInt16}
    (h : displayKey mode s = some k) : OnPanel k := by
  obtain ⟨d,hd,rfl⟩ := Option.map_eq_some_iff.mp h
  obtain ⟨hx,hy⟩ := canvasToDisplay_lt hd
  rw [UInt8.lt_iff_toNat_lt,show displaySide.toNat = 64 from rfl] at hx hy
  rw [onPanel_iff,PixelCoord.asU16_toNat]
  omega

theorem maskOf_ne_zero {bit : TrainState → UInt8} (hbit : ∀ s, bit s ≠ 0) {l : List TrainState}
    (hl : l ≠ []) : maskOf bit l ≠ 0 := by
  cases l with
  | nil => exact absurd rfl hl
  | cons s l =>
    intro h
    exact hbit s (UInt8.or_eq_zero_iff.mp h).1

theorem maskOf_perm {bit : TrainState → UInt8} {l l' : List TrainState} (h : l.Perm l') :
    maskOf bit l = maskOf bit l' := by
  refine h.foldr_eq' ?_ 0
  intro a _ b _ m
  rw [← UInt8.or_assoc,← UInt8.or_assoc,UInt8.or_comm (bit a)]

theorem mem_trainsAt_iff {r : Registry} {mode : MapMode} {k : UInt16} {s : TrainState} :
    s ∈ r.trainsAt mode k ↔ (∃ n, r.get n = some s) ∧ displayKey mode s = some k := by
  simp only [trainsAt,List.mem_filter,List.mem_map,Prod.exists,exists_eq_right,decide_eq_true_eq,
    get_eq_some_iff]

/-- A snapshot is determined by the registry, whatever the iteration order. -/
theorem IsSnapshot.unique {r r' : Registry} {mode : MapMode} {snap snap' : List PixelData}
    (h : IsSnapshot r mode snap) (h' : IsSnapshot r' mode snap')
    (hperm : r'.map.entries.Perm r.map.entries) : snap = snap' := by
  have hat : ∀ k, (r.trainsAt mode k).Perm (r'.trainsAt mode k) :=
    fun k => ((hperm.symm.map Prod.snd).filter _)
  have hget : ∀ n s, r.get n = some s ↔ r'.get n = some s := by
    intro n s
    rw [get_eq_some_iff,get_eq_some_iff,hperm.mem_iff]
  have hsub : ∀ {r₁ r₂ : Registry} {l₁ l₂ : List PixelData}, IsSnapshot r₁ mode l₁ →
      IsSnapshot r₂ mode l₂ → (∀ k, (r₁.trainsAt mode k).Perm (r₂.trainsAt mode k)) →
      (∀ n s, r₁.get n = some s ↔ r₂.get n = some s) → ∀ p, p ∈ l₁ → p ∈ l₂ := by
    intro r₁ r₂ l₁ l₂ h₁ h₂ hat hget p hp
    obtain ⟨n,s,hs,hk⟩ := (h₁.mem_iff p.coordKey).mp ⟨p,hp,rfl⟩
    obtain ⟨q,hq,hqk⟩ := (h₂.mem_iff p.coordKey).mpr ⟨n,s,(hget n s).mp hs,hk⟩
    have htypes := (h₁.types_eq p hp).trans (maskOf_perm (hat p.coordKey))
    have hservices := (h₁.services_eq p hp).trans (maskOf_perm (hat p.coordKey))
    have hqt := h₂.types_eq q hq
    have hqs := h₂.services_eq q hq
    rw [hqk] at hqt hqs
    have hpq : p = q := by
      cases p
      cases q
      simp_all
    exact hpq ▸ hq
  refine eq_of_strict_of_mem_iff (h.sorted.imp fun hlt => UInt16.lt_iff_toNat_lt.mp hlt)
    (h'.sorted.imp fun hlt => UInt16.lt_iff_toNat_lt.mp hlt) fun p => ⟨?_,?_⟩
  · exact hsub h h' hat hget p
  · exact hsub h' h (fun k => (hat k).symm) (fun n s => (hget n s).symm) p

theorem filterMap_visiblePixel_filter (mode : MapMode) (k : UInt16) (rows : List TrainState) :
    (rows.filterMap (visiblePixel mode)).filter (fun p => p.coordKey = k) =
      (rows.filter fun s => displayKey mode s = some k).filterMap (visiblePixel mode) := by
  induction rows with
  | nil => rfl
  | cons s rows ih =>
    cases hk : displayKey mode s with
    | none =>
      have hv : visiblePixel mode s = none := by rw [visiblePixel,hk]; rfl
      rw [List.filterMap_cons_none hv,ih,List.filter_cons_of_neg (by simp [hk])]
    | some k' =>
      have hv : visiblePixel mode s =
          some { coordKey := k', types := s.typ.asBit, services := s.service.asBit } := by
        rw [visiblePixel,hk]
        rfl
      rw [List.filterMap_cons_some hv]
      by_cases hkk : k' = k
      · rw [List.filter_cons_of_pos (by simpa using hkk),ih,
          List.filter_cons_of_pos (by simpa [hk] using hkk),List.filterMap_cons_some hv]
      · rw [List.filter_cons_of_neg (by simpa using hkk),ih,
          List.filter_cons_of_neg (by simpa [hk] using hkk)]

/-- A field of the visible entries, united over one pixel. -/
theorem foldr_visiblePixel {mode : MapMode} {field : PixelData → UInt8}
    {bit : TrainState → UInt8}
    (hfield : ∀ s p, visiblePixel mode s = some p → field p = bit s) (k : UInt16)
    (rows : List TrainState) :
    ((rows.filterMap (visiblePixel mode)).filter fun p => p.coordKey = k).foldr
        (fun p m => field p ||| m) 0 =
      maskOf bit (rows.filter fun s => displayKey mode s = some k) := by
  rw [filterMap_visiblePixel_filter]
  have hall : ∀ s ∈ rows.filter (fun s => displayKey mode s = some k),
      ∃ p, visiblePixel mode s = some p := by
    intro s hs
    have hk : displayKey mode s = some k := by simpa using (List.mem_filter.mp hs).2
    exact ⟨_,by rw [visiblePixel,hk]; rfl⟩
  generalize rows.filter (fun s => displayKey mode s = some k) = l at hall
  induction l with
  | nil => rfl
  | cons s l ih =>
    obtain ⟨p,hp⟩ := hall s List.mem_cons_self
    rw [List.filterMap_cons_some hp,List.foldr_cons,
      ih fun s' hs' => hall s' (List.mem_cons_of_mem s hs'),hfield s p hp]
    rfl

/-- Coalescing the sorted visible entries gives the snapshot. -/
theorem isSnapshot_coalesce (r : Registry) (mode : MapMode) {l : List PixelData}
    (hperm : l.Perm ((r.map.entries.map Prod.snd).filterMap (visiblePixel mode)))
    (hs : l.Pairwise fun p q => p.key ≤ q.key) :
    IsSnapshot r mode (coalesce PixelData.key PixelData.absorb l) := by
  have hfield : ∀ {field : PixelData → UInt8} {bit : TrainState → UInt8},
      (∀ a b : PixelData, field (a.absorb b) = field a ||| field b) →
      (∀ s p, visiblePixel mode s = some p → field p = bit s) →
      ∀ p ∈ coalesce PixelData.key PixelData.absorb l,
        field p = maskOf bit (r.trainsAt mode p.coordKey) := by
    intro field bit habsorb hbit p hp
    rw [observe_of_mem_coalesce PixelData.absorb_key (· ||| ·) 0 field habsorb hs hp,trainsAt,
      ← foldr_visiblePixel hbit]
    simp only [PixelData.key_eq_iff]
    refine (hperm.filter _).foldr_eq' ?_ 0
    intro a _ b _ m
    rw [← UInt8.or_assoc,← UInt8.or_assoc,UInt8.or_comm (field a)]
  refine ⟨?_,?_,?_,?_⟩
  · exact (coalesce_strict PixelData.absorb_key hs).imp fun hlt => UInt16.lt_iff_toNat_lt.mpr hlt
  · intro k
    have hkeys := mem_keys_coalesce_iff (k := k.toNat) PixelData.absorb_key hs
    simp only [PixelData.key,UInt16.toNat_inj] at hkeys
    rw [hkeys]
    constructor
    · rintro ⟨p,hp,rfl⟩
      obtain ⟨s,hs',hv⟩ := List.mem_filterMap.mp (hperm.mem_iff.mp hp)
      obtain ⟨⟨n,s'⟩,he,rfl⟩ := List.mem_map.mp hs'
      obtain ⟨k,hk,rfl⟩ := Option.map_eq_some_iff.mp hv
      exact ⟨n,s',get_eq_some_iff.mpr he,hk⟩
    · rintro ⟨n,s,hget,hk⟩
      refine ⟨{ coordKey := k, types := s.typ.asBit, services := s.service.asBit },?_,rfl⟩
      refine hperm.mem_iff.mpr (List.mem_filterMap.mpr ⟨s,?_,by rw [visiblePixel,hk]; rfl⟩)
      exact List.mem_map.mpr ⟨(n,s),get_eq_some_iff.mp hget,rfl⟩
  · refine hfield (fun _ _ => rfl) fun s p hv => ?_
    obtain ⟨k,_,rfl⟩ := Option.map_eq_some_iff.mp hv
    rfl
  · refine hfield (fun _ _ => rfl) fun s p hv => ?_
    obtain ⟨k,_,rfl⟩ := Option.map_eq_some_iff.mp hv
    rfl

/-- A rebuild never overruns its buffer and leaves the snapshot in it. -/
theorem rebuildClustersInto_isSnapshot (srt : UnstableSort) (r : Registry) (out : ClusterVec)
    (mode : MapMode) :
    ∃ snap, r.rebuildClustersInto srt out mode = some snap ∧ IsSnapshot r mode snap.toList := by
  obtain ⟨vis,hcollect,hvis⟩ := collectVisible_spec mode (r.map.entries.map Prod.snd) out.clear
    (by simpa [Vec.clear] using r.map.length_le)
  obtain ⟨out',write,hcollapse,hlen,htake⟩ := collapseRuns_zero (srt.sort vis.toList)
  have hfit : (out'.take write).length ≤ maxTrains := by
    rw [List.length_take,hlen,(srt.perm vis.toList).length_eq]
    exact (Nat.min_le_right _ _).trans vis.length_le
  refine ⟨⟨out'.take write,hfit⟩,?_,?_⟩
  · simp only [rebuildClustersInto,hcollect,hcollapse]
    exact Vec.ofList?_eq_some_iff.mpr rfl
  · dsimp only
    rw [htake]
    refine isSnapshot_coalesce r mode ?_ (srt.sorted vis.toList)
    rw [Vec.toList_clear,List.nil_append] at hvis
    exact hvis ▸ srt.perm vis.toList

/-- Every pixel of a snapshot lies on the display and carries a train. -/
theorem IsSnapshot.pixel {r : Registry} {mode : MapMode} {snap : List PixelData}
    (h : IsSnapshot r mode snap) {p : PixelData} (hp : p ∈ snap) :
    OnPanel p.coordKey ∧ p.types ≠ 0 ∧ p.services ≠ 0 := by
  obtain ⟨n,s,hs,hk⟩ := (h.mem_iff p.coordKey).mp ⟨p,hp,rfl⟩
  have hne : r.trainsAt mode p.coordKey ≠ [] :=
    List.ne_nil_of_mem (mem_trainsAt_iff.mpr ⟨⟨n,hs⟩,hk⟩)
  refine ⟨displayKey_onPanel hk,?_,?_⟩
  · rw [h.types_eq p hp]
    exact maskOf_ne_zero (fun s => s.typ.asBit_ne_zero) hne
  · rw [h.services_eq p hp]
    exact maskOf_ne_zero (fun s => s.service.asBit_ne_zero) hne

/-- Snapshot correctness. For any sort, registry, mode and old buffer content the
rebuild succeeds; it depends on the registry only up to iteration order. -/
theorem rebuildClustersInto_correct (srt : UnstableSort) (r : Registry) (out : ClusterVec)
    (mode : MapMode) :
    ∃ snap, r.rebuildClustersInto srt out mode = some snap ∧ IsSnapshot r mode snap.toList ∧
      (∀ p ∈ snap.toList, OnPanel p.coordKey ∧ p.types ≠ 0 ∧ p.services ≠ 0) ∧
      ∀ (srt' : UnstableSort) (r' : Registry) (out' : ClusterVec),
        r'.map.entries.Perm r.map.entries →
        r'.rebuildClustersInto srt' out' mode = some snap := by
  obtain ⟨snap,hrun,h⟩ := rebuildClustersInto_isSnapshot srt r out mode
  refine ⟨snap,hrun,h,fun p hp => h.pixel hp,fun srt' r' out' hperm => ?_⟩
  obtain ⟨snap',hrun',h'⟩ := rebuildClustersInto_isSnapshot srt' r' out' mode
  rw [hrun',Vec.ext (h.unique h' hperm)]

end Registry

end NsPixels
