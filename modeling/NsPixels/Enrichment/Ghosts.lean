import NsPixels.Enrichment.Reports
import NsPixels.Registry.Eviction

/-!
# Trains that are no longer reported

A message evicts one batch of stale rows, in an order that earlier evictions have mixed up.
A stale row can be passed over, but only while whole batches go, so it is gone after as
many messages as there are batches of rows to go.
-/

namespace NsPixels

open FixedCap

namespace Registry

variable {r r' : Registry} {limit cutoff : ℕ} {n : UInt32}

theorem length_stale_le (h : ∀ m s', r'.get m = some s' → s'.lastSeen < limit →
    ∃ s, r.get m = some s ∧ s.lastSeen < limit) :
    (r'.stale limit).length ≤ (r.stale limit).length := by
  refine ((r'.stale_nodup limit).subperm fun m hm => ?_).length_le
  obtain ⟨s',hs',hlt⟩ := mem_stale_iff.mp hm
  exact mem_stale_iff.mpr (h m s' hs' hlt)

/-- An eviction takes off the backlog what it evicts. -/
theorem length_stale_evict (hcutoff : cutoff ≤ limit) :
    ((r.evictOlderThan cutoff).1.stale limit).length + ((r.stale cutoff).take evictBatch).length ≤
      (r.stale limit).length := by
  have hkept : ∀ m ∈ (r.evictOlderThan cutoff).1.stale limit,
      m ∉ (r.stale cutoff).take evictBatch ∧ m ∈ r.stale limit := by
    intro m hm
    obtain ⟨s,hs,hlt⟩ := mem_stale_iff.mp hm
    rw [get_evictOlderThan_stale] at hs
    split at hs
    · cases hs
    · next hnot => exact ⟨hnot,mem_stale_iff.mpr ⟨s,hs,hlt⟩⟩
  have hnodup : ((r.evictOlderThan cutoff).1.stale limit ++ (r.stale cutoff).take evictBatch).Nodup :=
    List.nodup_append'.mpr ⟨stale_nodup _ _,(r.stale_nodup cutoff).sublist (List.take_sublist _ _),
      fun m hm htake => (hkept m hm).1 htake⟩
  rw [← List.length_append]
  refine (hnodup.subperm fun m hm => ?_).length_le
  obtain hm | hm := List.mem_append.mp hm
  · exact (hkept m hm).2
  · obtain ⟨s,hs,hlt⟩ := mem_stale_iff.mp (List.mem_of_mem_take hm)
    exact mem_stale_iff.mpr ⟨s,hs,hlt.trans_le hcutoff⟩

/-- A stale row that an eviction passes over has let a whole batch go first. -/
theorem passed_over (hstale : n ∈ r.stale cutoff) (h : (r.evictOlderThan cutoff).1.get n ≠ none) :
    ((r.stale cutoff).take evictBatch).length = evictBatch := by
  rw [List.length_take,Nat.min_eq_left]
  by_contra hshort
  rw [get_evictOlderThan_stale,List.take_of_length_le (Nat.le_of_not_le hshort),if_pos hstale] at h
  exact h rfl

end Registry

section Lingering

open Registry

variable [TickRate] {n : UInt32} {seen limit total k : ℕ} {r : Registry}

/-- `n` is gone, or has not been seen again while `k` batches have gone of the `total` rows last
seen before `limit`. -/
def Lingers (n : UInt32) (seen limit total k : ℕ) (r : Registry) : Prop :=
  r.get n = none ∨ (∃ s, r.get n = some s ∧ s.lastSeen = seen) ∧
    (r.stale limit).length + k * evictBatch ≤ total

/-- The operations of the tasks that are not about `n`: what they see they see after `limit`. -/
def Elsewhere (n : UInt32) (limit : ℕ) (e : Event) : Prop :=
  ∀ m pixel, e.op = .upsert m pixel → m ≠ n ∧ limit ≤ e.now

/-- No row becomes stale by an operation. -/
theorem length_stale_apply {e : Event} (he : Elsewhere n limit e) :
    ((r.apply e).stale limit).length ≤ (r.stale limit).length := by
  refine length_stale_le fun m s' hs' hlt => ?_
  rcases r.get_apply_cases e m with ⟨s,hs,hr⟩ | ⟨_,_,hr⟩ | ⟨pixel,hop,_,hr⟩ | ⟨_,hr⟩
  · rw [hs',Option.some.injEq] at hr
    obtain hsame | ⟨pixel,hop,hnow⟩ := s.lastSeen_after m e
    · exact ⟨s,hs,by rwa [hr,hsame] at hlt⟩
    · rw [hr,hnow] at hlt
      exact absurd (he m pixel hop).2 (Nat.not_le_of_lt hlt)
  · rw [hs'] at hr
    cases hr
  · rw [hs',Option.some.injEq] at hr
    rw [hr] at hlt
    exact absurd (he m pixel hop).2 (Nat.not_le_of_lt hlt)
  · rw [hs'] at hr
    cases hr

theorem Lingers.apply {e : Event} (h : Lingers n seen limit total k r) (he : Elsewhere n limit e) :
    Lingers n seen limit total k (r.apply e) := by
  have hnot : ∀ pixel, e.op ≠ .upsert n pixel := fun pixel hop => (he n pixel hop).1 rfl
  rcases r.get_apply_cases e n with ⟨s,hs,hr⟩ | ⟨_,_,hr⟩ | ⟨pixel,hop,_,_⟩ | ⟨_,hr⟩
  · obtain hnone | ⟨⟨s₀,hs₀,hseen⟩,hle⟩ := h
    · rw [hs] at hnone
      cases hnone
    · rw [hs,Option.some.injEq] at hs₀
      have hlast := (s.lastSeen_after n e).resolve_right fun ⟨pixel,hop,_⟩ => hnot pixel hop
      refine Or.inr ⟨⟨_,hr,by rw [hlast,hs₀,hseen]⟩,?_⟩
      have hstale := length_stale_apply (r := r) he
      omega
  · exact Or.inl hr
  · exact absurd hop (hnot pixel)
  · exact Or.inl hr

theorem Lingers.run {es : List Event} (h : Lingers n seen limit total k r)
    (hes : ∀ e ∈ es, Elsewhere n limit e) : Lingers n seen limit total k (r.run es) := by
  induction es generalizing r with
  | nil => exact h
  | cons e es ih =>
    exact ih (h.apply (hes e List.mem_cons_self)) fun e' he' => hes e' (List.mem_cons_of_mem _ he')

omit [TickRate] in
/-- The eviction of a message: `n` goes, or a batch does. -/
theorem Lingers.evict {cutoff : ℕ} (h : Lingers n seen limit total k r) (hseen : seen < cutoff)
    (hcutoff : cutoff ≤ limit) : Lingers n seen limit total (k + 1) (r.evictOlderThan cutoff).1 := by
  obtain hnone | ⟨⟨s,hs,rfl⟩,hle⟩ := h
  · left
    rw [get_evictOlderThan_stale,hnone,ite_self]
  · by_cases hgone : (r.evictOlderThan cutoff).1.get n = none
    · exact Or.inl hgone
    right
    have hbatch := passed_over (mem_stale_iff.mpr ⟨s,hs,hseen⟩) hgone
    have hbacklog := length_stale_evict (r := r) hcutoff
    refine ⟨⟨s,?_,rfl⟩,?_⟩
    · rw [get_evictOlderThan_stale] at hgone ⊢
      split at hgone
      · exact absurd rfl hgone
      · next hnot => rw [if_neg hnot,hs]
    · rw [hbatch] at hbacklog
      rw [Nat.succ_mul]
      omega

end Lingering

namespace Enrichment

open Registry

variable [TickRate] {ε : Type} {json : NsApi.Json} {headers : List (String × String)}
  {as : List (Action ε)} {s s' : State ε} {a : Action ε} {n : UInt32} {row : TrainState}
  {seen limit total k last : ℕ}

/-- `STALE_AFTER` as a duration. -/
def staleAfter : ℕ := Duration.fromSecs staleAfterS

/-- The message that an action applies. -/
def messages (s : State ε) : Action ε → List (ℕ × List Train)
  | .applyMessage =>
    match s.feed with
    | .receiving => []
    | .locking now trains => [(now,trains)]
  | _ => []

/-- A message about other trains, which finds `n` stale. -/
structure PassesBy (n : UInt32) (seen last : ℕ) (m : ℕ × List Train) : Prop where
  stale : seen + staleAfter < m.1
  le_last : m.1 ≤ last
  recent : last ≤ m.1 + staleAfter
  unreported : n ∉ m.2.map Train.number

theorem lingers_message {r : Registry} {now : ℕ} {trains : List Train}
    (h : Lingers n seen (last - staleAfter) total k r) (hm : PassesBy n seen last (now,trains)) :
    Lingers n seen (last - staleAfter) total (k + 1) (r.run (messageEvents now trains)) := by
  have hstale := hm.stale
  have hlast := hm.le_last
  have hrecent := hm.recent
  dsimp only at hstale hlast hrecent
  have hpos : 0 < staleAfter := Duration.fromSecs_pos (by decide)
  have hcutoff : Instant.checkedSub now (Duration.fromSecs staleAfterS) = some (now - staleAfter) :=
    if_pos (by rw [← staleAfter]; omega)
  rw [messageEvents,hcutoff,Option.getD_some,if_pos (by omega),Registry.run_append]
  refine Lingers.run (Lingers.evict h (by omega) (by omega)) fun e he m pixel hop => ?_
  obtain ⟨t,ht,rfl⟩ := List.mem_map.mp he
  obtain ⟨rfl,-⟩ := Op.upsert.inj hop
  refine ⟨?_,show last - staleAfter ≤ now by omega⟩
  rintro rfl
  exact hm.unreported (List.mem_map_of_mem ht)

/-- Only a message sees trains. -/
theorem elsewhere_of_events (ha : reports s a = []) :
    ∀ e ∈ events json headers s a, Elsewhere n limit e := by
  intro e he m pixel hop
  have hreport : e.report = some (⟨m,pixel⟩,e.now) := by rw [Event.report,hop]
  have hmem : (⟨m,pixel⟩,e.now) ∈ (events json headers s a).filterMap Event.report :=
    List.mem_filterMap.mpr ⟨e,he,hreport⟩
  rw [filterMap_events,ha] at hmem
  cases hmem

theorem lingers_step (h : Lingers n seen (last - staleAfter) total k s.registry)
    (hm : ∀ m ∈ messages s a, PassesBy n seen last m) (hstep : step json headers s a = some s') :
    Lingers n seen (last - staleAfter) total (k + (messages s a).length) s'.registry := by
  rw [step_registry hstep]
  cases a with
  | applyMessage =>
    cases hfeed : s.feed with
    | receiving =>
      simp only [events,messages,hfeed]
      exact h
    | locking now trains =>
      simp only [events,messages,hfeed] at hm ⊢
      exact lingers_message h (hm _ (List.mem_singleton_self _))
  | _ => exact Lingers.run h (elsewhere_of_events rfl)

theorem lingers_runFrom (h : Lingers n seen (last - staleAfter) total k s.registry)
    (hrun : (machine json headers).runFrom s as = some s')
    (hmessages : ∀ m ∈ (machine json headers).traceFrom messages s as, PassesBy n seen last m) :
    Lingers n seen (last - staleAfter) total
      (k + ((machine json headers).traceFrom messages s as).length) s'.registry := by
  induction as generalizing s k with
  | nil =>
    rw [Machine.runFrom,Option.some.injEq] at hrun
    rw [← hrun]
    exact h
  | cons a as ih =>
    rw [Machine.runFrom,Option.bind_eq_some_iff] at hrun
    obtain ⟨t,ht,hrun⟩ := hrun
    have hstep : step json headers s a = some t := ht
    rw [Machine.traceFrom,ht,Option.map_some,Option.getD_some] at hmessages ⊢
    rw [List.length_append,← Nat.add_assoc]
    exact ih (lingers_step h (fun m hm => hmessages m (List.mem_append_left _ hm)) hstep) hrun
      fun m hm => hmessages m (List.mem_append_right _ hm)

/-- From any state on, a train that is not reported any more is gone after as many messages
as there are batches of rows to go, if they find it stale and come within the time after
which rows are stale. It does not matter what else they report and what the API answers. -/
theorem ghost_gone (hrow : s.registry.get n = some row) (hlast : row.lastSeen + staleAfter < last)
    (hrun : (machine json headers).runFrom s as = some s')
    (hmessages : ∀ m ∈ (machine json headers).traceFrom messages s as,
      PassesBy n row.lastSeen last m)
    (henough : (s.registry.stale (last - staleAfter)).length ≤
      ((machine json headers).traceFrom messages s as).length * evictBatch) :
    s'.registry.get n = none := by
  have hstart : Lingers n row.lastSeen (last - staleAfter)
      (s.registry.stale (last - staleAfter)).length 0 s.registry := by
    refine Or.inr ⟨⟨row,hrow,rfl⟩,?_⟩
    rw [Nat.zero_mul]
    exact le_rfl
  obtain hnone | ⟨⟨row',hrow',hseen⟩,hle⟩ := lingers_runFrom hstart hrun hmessages
  · exact hnone
  · -- it would be in a backlog that is empty
    have hmem := mem_stale_iff.mpr ⟨row',hrow',show row'.lastSeen < last - staleAfter by omega⟩
    have hpos := List.length_pos_of_mem hmem
    rw [Nat.zero_add] at hle
    omega

/-- Seventy trains are seen at boot, more than one batch. -/
def bootMessage : List (Action Unit) :=
  [.receive ((List.range 70).map fun i => ⟨UInt32.ofNat i,⟨3,4⟩⟩),.applyMessage]

/-- Six minutes later there are only two others, in two messages. -/
def laterMessages : List (Action Unit) :=
  [.tick 360000000,.receive [⟨100,⟨5,6⟩⟩],.applyMessage,.tick 1000000,.receive [⟨101,⟨7,8⟩⟩],
    .applyMessage]

omit [TickRate] in
/-- The first eviction passes train 66 over. -/
theorem ghost_gone_seventy : letI := microTicks
    ∃ (s s' : State Unit), (machine NsApi.sampleJson []).run bootMessage = some s ∧
      ((machine NsApi.sampleJson []).runFrom s (laterMessages.take 3)).any
        (fun t => (t.registry.get 66).isSome) ∧
      (machine NsApi.sampleJson []).runFrom s laterMessages = some s' ∧ s'.registry.get 66 = none := by
  let _ := microTicks
  have hboot : ((machine NsApi.sampleJson []).run bootMessage).map (fun s =>
      ((s.registry.get 66,(s.registry.stale (361000000 - staleAfter)).length),
        ((machine NsApi.sampleJson []).traceFrom messages s laterMessages).map
          (fun m => (m.1,m.2.map Train.number)),
        ((machine NsApi.sampleJson []).runFrom s (laterMessages.take 3)).any
          (fun t => (t.registry.get 66).isSome),
        ((machine NsApi.sampleJson []).runFrom s laterMessages).isSome)) =
      some ((some (TrainState.new ⟨3,4⟩ 0),70),[(360000000,[100]),(361000000,[101])],true,true) := by
    decide +kernel
  obtain ⟨s,hs,hdata⟩ := Option.map_eq_some_iff.mp hboot
  obtain ⟨⟨hrow,hstale⟩,htrace,hfirst,hlater⟩ : (_ ∧ _) ∧ _ ∧ _ ∧ _ := by
    simpa only [Prod.mk.injEq] using hdata
  obtain ⟨s',hs'⟩ := Option.isSome_iff_exists.mp hlater
  refine ⟨s,s',hs,hfirst,hs',
    ghost_gone hrow (show 0 + staleAfter < 361000000 by decide +kernel) hs' ?_ ?_⟩
  · intro m hm
    have hmap := List.mem_map_of_mem (f := fun m : ℕ × List Train => (m.1,m.2.map Train.number)) hm
    rw [htrace] at hmap
    simp only [List.mem_cons,List.not_mem_nil,or_false,Prod.mk.injEq] at hmap
    obtain ⟨hnow,hnumbers⟩ | ⟨hnow,hnumbers⟩ := hmap
    · exact ⟨by rw [hnow]; decide +kernel,by rw [hnow]; decide,by rw [hnow]; decide +kernel,
        by rw [hnumbers]; decide⟩
    · exact ⟨by rw [hnow]; decide +kernel,hnow.le,by rw [hnow]; exact Nat.le_add_right _ _,
        by rw [hnumbers]; decide⟩
  · have hlength := congrArg List.length htrace
    rw [List.length_map] at hlength
    rw [hstale,hlength]
    decide

end Enrichment

end NsPixels
