import NsPixels.Lib.Waiting
import NsPixels.NsApi
import NsPixels.Registry.Cooldown
import NsPixels.Registry.Eviction

/-!
# Progress of the sweep

Each sweep requests only as many trains as its buffers hold, the first ones in iteration
order. Within a cooldown those requested are not requested again, so that the turn of
every train comes: after as many sweeps as the trains before it fill.
-/

namespace NsPixels

open FixedCap NsApi Waiting Registry

section Turns

variable [TickRate]

namespace TrainState

/-- Seen at `origin` or later, and attempted on `axis` since then. -/
structure Tried (axis : UnknownAxis) (origin : ℕ) (s : TrainState) : Prop where
  seen : origin ≤ s.lastSeen
  anchored : s.Anchored axis origin

/-- Unknown on `axis` and never attempted. -/
def Untried (axis : UnknownAxis) (s : TrainState) : Prop :=
  s.isUnknown axis = true ∧ s.attemptAgoS axis = attemptNever

variable {axis : UnknownAxis} {origin : ℕ} {n : UInt32} {s : TrainState} {e : Event}

theorem origin_le_after (h : origin ≤ s.lastSeen) (hnow : s.lastSeen ≤ e.now) :
    origin ≤ (s.after n e).lastSeen := by
  obtain hsame | ⟨_,_,hseen⟩ := s.lastSeen_after n e
  · exact h.trans hsame.ge
  · exact (h.trans hnow).trans hseen.ge

/-- A stamp tries a row, whatever it was. -/
theorem Tried.of_stamps (h : origin ≤ s.lastSeen) (hnow : s.lastSeen ≤ e.now)
    (hstamp : e.op.stamps axis = some n) : (s.after n e).Tried axis origin := by
  obtain ⟨hago,hlast⟩ := after_of_stamps hstamp s
  rw [attemptOffsetS_of_le hnow] at hago
  refine ⟨hlast ▸ h,?_,?_⟩
  · rw [hago]
    decide
  · rw [hago,hlast]
    exact (Nat.add_le_add_left (Nat.le_of_eq (Nat.zero_mul _)) _).trans h

theorem Tried.after (h : s.Tried axis origin) (hnow : s.lastSeen ≤ e.now) :
    (s.after n e).Tried axis origin := by
  by_cases hstamp : e.op.stamps axis = some n
  · exact .of_stamps h.seen hnow hstamp
  · exact ⟨origin_le_after h.seen hnow,h.anchored.after hstamp hnow⟩

/-- A row that was tried before a run or is stamped in it has been tried after it. -/
theorem Tried.foldl_after {start : ℕ} {es : List Event} (hseen : origin ≤ s.lastSeen)
    (hstart : s.lastSeen ≤ start) (hc : Chronological start es)
    (h : s.Tried axis origin ∨ ∃ e ∈ es, e.op.stamps axis = some n) :
    (es.foldl (TrainState.after n) s).Tried axis origin := by
  induction es generalizing s start with
  | nil => exact h.resolve_right fun ⟨_,he,_⟩ => by cases he
  | cons e es ih =>
    have hnow : s.lastSeen ≤ e.now := hstart.trans hc.1
    apply ih (origin_le_after hseen hnow) (after_lastSeen_le hnow (Nat.le_refl _)) hc.2
    obtain htried | ⟨e',he',hstamp⟩ := h
    · exact Or.inl (htried.after hnow)
    · obtain rfl | he' := List.mem_cons.mp he'
      · exact Or.inl (.of_stamps hseen hnow hstamp)
      · exact Or.inr ⟨e',he',hstamp⟩

/-- Only a stamp tries a row. -/
theorem Untried.after (h : s.Untried axis) (hquiet : e.op.stamps axis ≠ some n) :
    (s.after n e).Untried axis := by
  obtain ⟨pixel,he⟩ | ⟨hago,hunknown,-⟩ := after_of_quiet hquiet s
  · rw [he]
    refine ⟨?_,?_⟩
    · have hkept : (s.refresh pixel e.now).isUnknown axis = s.isUnknown axis := by cases axis <;> rfl
      exact hkept.trans h.1
    · rw [refresh_attemptAgoS,bumpAttemptAgo_eq_attemptNever_iff]
      exact h.2
  · exact ⟨hunknown.trans h.1,hago.trans h.2⟩

theorem Untried.foldl_after {es : List Event} (h : s.Untried axis)
    (hquiet : ∀ e ∈ es, e.op.stamps axis ≠ some n) :
    (es.foldl (TrainState.after n) s).Untried axis := by
  induction es generalizing s with
  | nil => exact h
  | cons e es ih =>
    exact ih (h.after (hquiet e List.mem_cons_self)) fun e' he' =>
      hquiet e' (List.mem_cons_of_mem e he')

end TrainState

namespace Registry

/-- The registered numbers in iteration order. -/
def keys (r : Registry) : List UInt32 := r.map.entries.map Prod.fst

/-- Room of the buffer of `axis`. -/
def bufferCap : UnknownAxis → ℕ
  | .type => typeBufferCap
  | .service => serviceBufferCap

/-- What a sweep at `now` into empty buffers requests on `axis`. -/
def requested (axis : UnknownAxis) (r : Registry) (now : ℕ) : List UInt32 :=
  match r.pendingEnrichment (Vec.empty : Vec UInt32 typeBufferCap)
    (Vec.empty : Vec UInt32 serviceBufferCap) (Duration.fromSecs retryCooldownS) now with
  | none => []
  | some (typeBatch,serviceBatch) =>
    match axis with
    | .type => typeBatch.toList
    | .service => serviceBatch.toList

/-- A sweep and what happens to the registry until the next one. -/
structure Round where
  now : ℕ
  events : List Event

/-- Every train requested in a round has an attempt stamped before the next round, and
only trains last seen before `origin` are evicted. -/
def Served (axis : UnknownAxis) (origin start : ℕ) (r : Registry) : List Round → Prop
  | [] => True
  | round :: rounds =>
    start ≤ round.now ∧ Chronological round.now round.events ∧
      (∀ m ∈ r.requested axis round.now, ∃ e ∈ round.events, e.op.stamps axis = some m) ∧
      (∀ e ∈ round.events, ∀ cutoff, e.op = .evictOlderThan cutoff → cutoff ≤ origin) ∧
      Served axis origin (lastInstant round.now round.events) (r.run round.events) rounds

/-- The turn of `n` comes: it is requested, or an attempt of it is stamped anyway. -/
def Turn (axis : UnknownAxis) (n : UInt32) (r : Registry) : List Round → Prop
  | [] => False
  | round :: rounds =>
    n ∈ r.requested axis round.now ∨ (∃ e ∈ round.events, e.op.stamps axis = some n) ∨
      Turn axis n (r.run round.events) rounds

variable {axis : UnknownAxis} {origin start now : ℕ} {n : UInt32} {r : Registry}

theorem requested_eq (hnow : r.SeenBy now) : r.requested axis now =
    (candidates axis now retryCooldownS r.map.entries).take (bufferCap axis) := by
  obtain ⟨typeBatch,serviceBatch,hrun,ht,hs⟩ := pendingEnrichment_spec hnow.entries
    (Duration.fromSecs retryCooldownS) (Vec.empty : Vec UInt32 typeBufferCap)
    (Vec.empty : Vec UInt32 serviceBufferCap)
  rw [Duration.asSecs_fromSecs] at ht hs
  rw [requested,hrun]
  cases axis with
  | type => exact ht
  | service => exact hs

theorem requested_nodup (hnow : r.SeenBy now) : (r.requested axis now).Nodup := by
  rw [requested_eq hnow]
  have hkeys := r.map.nodup.sublist ((List.filter_sublist (p := fun e : UInt32 × TrainState =>
    wants e.2 axis (Duration.asSecs (now - e.2.lastSeen)) retryCooldownS)
      (l := r.map.entries)).map Prod.fst)
  exact hkeys.sublist (List.take_sublist _ _)

/-- Within a cooldown of `origin` no train tried since `origin` is requested. -/
theorem not_tried_of_requested {m : UInt32} {s : TrainState} (hnow : r.SeenBy now)
    (hwindow : now < origin + Duration.fromSecs retryCooldownS)
    (hm : m ∈ r.requested axis now) (hs : r.get m = some s) : ¬ s.Tried axis origin := by
  intro htried
  rw [requested_eq hnow] at hm
  obtain ⟨v,hv,hw⟩ := mem_candidates_iff.mp (List.mem_of_mem_take hm)
  rw [get_eq_some_iff.mpr hv,Option.some.injEq] at hs
  subst hs
  exact absurd (htried.anchored.le_of_wants (hnow m v (get_eq_some_iff.mpr hv)) hw)
    (not_le.mpr hwindow)

/-- While a never attempted train is not requested, all requested ones stand in front of
it and fill the buffer. -/
theorem requested_in_front {s : TrainState} {front back : List UInt32} (hnow : r.SeenBy now)
    (hkeys : r.keys = front ++ n :: back) (hs : r.get n = some s) (huntried : s.Untried axis)
    (hnot : n ∉ r.requested axis now) :
    (r.requested axis now).length = bufferCap axis ∧ ∀ m ∈ r.requested axis now, m ∈ front := by
  obtain ⟨before,rest,hentries,rfl,hrest⟩ := List.map_eq_append_iff.mp hkeys
  obtain ⟨⟨k,v⟩,after,rfl,hk,rfl⟩ := List.map_eq_cons_iff.mp hrest
  obtain rfl : k = n := hk
  have hv : v = s := by
    have hmem : (k,v) ∈ r.map.entries := by
      rw [hentries]
      exact List.mem_append_right _ List.mem_cons_self
    exact Option.some.inj ((get_eq_some_iff.mpr hmem).symm.trans hs)
  subst hv
  rw [requested_eq hnow,candidates,← List.map_take] at hnot ⊢
  have hwants : wants v axis (Duration.asSecs (now - v.lastSeen)) retryCooldownS = true := by
    rw [wants,huntried.1,huntried.2,ready_attemptNever]
    rfl
  obtain ⟨hlen,hfront⟩ := served_in_front hentries hwants
    fun hmem => hnot (List.mem_map_of_mem (f := Prod.fst) hmem)
  refine ⟨(List.length_map _).trans hlen,fun m hm => ?_⟩
  obtain ⟨e,he,rfl⟩ := List.mem_map.mp hm
  exact List.mem_map_of_mem (hfront e he)

/-! ### Nothing seen since `origin` leaves -/

/-- Every row was seen at `origin` or later. -/
def SeenSince (r : Registry) (origin : ℕ) : Prop := ∀ n s, r.get n = some s → origin ≤ s.lastSeen

omit [TickRate] in
theorem SeenSince.evictOlderThan {cutoff : ℕ} (h : r.SeenSince origin) (hcutoff : cutoff ≤ origin) :
    (r.evictOlderThan cutoff).1 = r := by
  have hnone : r.stale cutoff = [] := by
    rw [List.eq_nil_iff_forall_not_mem]
    intro m hm
    obtain ⟨s,hs,hlt⟩ := mem_stale_iff.mp hm
    exact absurd (hcutoff.trans (h m s hs)) (not_le.mpr hlt)
  have hempty : (collectStale cutoff r.map.entries Vec.empty).toList = [] := by
    rw [toList_collectStale_empty,hnone,List.take_nil]
  rw [Registry.evictOlderThan]
  simp only [hempty,List.foldl_nil]

omit [TickRate] in
theorem keys_modify (k : UInt32) (f : TrainState → TrainState) :
    (⟨r.map.modify k f⟩ : Registry).keys = r.keys := by
  rw [keys,keys,IndexMap.modify,List.map_map]
  congr 1
  funext e
  simp only [Function.comp_apply]
  split <;> rfl

/-- Numbers are only added, behind those that are there. -/
theorem keys_apply {e : Event} (h : r.SeenSince origin)
    (hevict : ∀ cutoff, e.op = .evictOlderThan cutoff → cutoff ≤ origin) :
    r.keys <+: (r.apply e).keys := by
  obtain ⟨now,op⟩ := e
  cases op with
  | upsert m pixel =>
    simp only [apply,upsert]
    cases hm : r.get m with
    | some s => exact (keys_modify m _) ▸ List.prefix_rfl
    | none =>
      by_cases hroom : r.map.len < maxTrains
      · obtain ⟨map,hins,hentries⟩ :=
          IndexMap.insert_of_get_none (v := TrainState.new pixel now) hm hroom
        simp only [hins,Option.getD_some,keys,hentries,List.map_append]
        exact List.prefix_append _ _
      · simp only [IndexMap.insert_full hm hroom,Option.getD_none]
        exact List.prefix_rfl
  | setType m typ => exact (keys_modify m _) ▸ List.prefix_rfl
  | setService m service => exact (keys_modify m _) ▸ List.prefix_rfl
  | evictOlderThan cutoff =>
    have hsame : r.apply ⟨now,.evictOlderThan cutoff⟩ = r := h.evictOlderThan (hevict cutoff rfl)
    rw [hsame]

omit [TickRate] in
theorem isSome_get_iff {m : UInt32} : (r.get m).isSome ↔ m ∈ r.keys := by
  rw [Option.isSome_iff_ne_none,keys,← not_iff_not,not_not]
  exact IndexMap.get_eq_none_iff

theorem SeenSince.apply {e : Event} (h : r.SeenSince origin) (hseen : r.SeenBy e.now)
    (horigin : origin ≤ e.now) : (r.apply e).SeenSince origin := by
  intro m s hs
  rcases r.get_apply_cases e m with ⟨s₀,h₀,hr⟩ | ⟨_,_,hr⟩ | ⟨_,_,_,hr⟩ | ⟨_,hr⟩
  · rw [hs,Option.some.injEq] at hr
    exact hr ▸ TrainState.origin_le_after (h m s₀ h₀) (hseen m s₀ h₀)
  · rw [hs] at hr
    cases hr
  · rw [hs,Option.some.injEq] at hr
    rw [hr]
    exact horigin
  · rw [hs] at hr
    cases hr

/-- A run that evicts only what was last seen before `origin`. -/
theorem SeenSince.run {es : List Event} (h : r.SeenSince origin) (hseen : r.SeenBy start)
    (horigin : origin ≤ start) (hc : Chronological start es)
    (hevict : ∀ e ∈ es, ∀ cutoff, e.op = .evictOlderThan cutoff → cutoff ≤ origin) :
    (r.run es).SeenSince origin ∧ r.keys <+: (r.run es).keys ∧
      ∀ m, (r.get m).isSome → Stays m r es := by
  induction es generalizing r start with
  | nil => exact ⟨h,List.prefix_rfl,fun _ hm => hm⟩
  | cons e es ih =>
    have hnow := hseen.mono hc.1
    have hkeys := keys_apply h (hevict e List.mem_cons_self)
    obtain ⟨hsince,hkept,hstays⟩ := ih (h.apply hnow (horigin.trans hc.1))
      (hnow.apply (Nat.le_refl _)) (horigin.trans hc.1) hc.2
      fun e' he' => hevict e' (List.mem_cons_of_mem e he')
    refine ⟨hsince,hkeys.trans hkept,fun m hm => ⟨hm,hstays m ?_⟩⟩
    exact isSome_get_iff.mpr (hkeys.subset (isSome_get_iff.mp hm))

/-! ### The turn of a train -/

/-- Trains of `front` tried so far, each counted once. -/
structure Done (axis : UnknownAxis) (origin : ℕ) (r : Registry) (front done : List UInt32) :
    Prop where
  nodup : done.Nodup
  inFront : ∀ m ∈ done, m ∈ front
  tried : ∀ m ∈ done, ∃ s, r.get m = some s ∧ s.Tried axis origin

/-- A round tries what it requests, and what was tried stays so. -/
theorem Done.round {front done : List UInt32} {round : Round} (h : Done axis origin r front done)
    (hnow : r.SeenBy round.now) (hsince : r.SeenSince origin) (horigin : origin ≤ round.now)
    (hwindow : round.now < origin + Duration.fromSecs retryCooldownS)
    (hfront : ∀ m ∈ r.requested axis round.now, m ∈ front)
    (hc : Chronological round.now round.events)
    (hstamp : ∀ m ∈ r.requested axis round.now, ∃ e ∈ round.events, e.op.stamps axis = some m)
    (hevict : ∀ e ∈ round.events, ∀ cutoff, e.op = .evictOlderThan cutoff → cutoff ≤ origin) :
    Done axis origin (r.run round.events) front (done ++ r.requested axis round.now) := by
  obtain ⟨-,-,hstays⟩ := hsince.run hnow horigin hc hevict
  have hrow : ∀ m s, r.get m = some s →
      (s.Tried axis origin ∨ ∃ e ∈ round.events, e.op.stamps axis = some m) →
      ∃ s', (r.run round.events).get m = some s' ∧ s'.Tried axis origin := by
    intro m s hs htried
    refine ⟨_,get_run_of_stays hs (hstays m (by rw [hs]; rfl)),?_⟩
    exact .foldl_after (hsince m s hs) (hnow m s hs) hc htried
  refine ⟨?_,?_,?_⟩
  · refine List.nodup_append'.mpr ⟨h.nodup,requested_nodup hnow,fun m hm hreq => ?_⟩
    obtain ⟨s,hs,htried⟩ := h.tried m hm
    exact not_tried_of_requested hnow hwindow hreq hs htried
  · intro m hm
    exact (List.mem_append.mp hm).elim (h.inFront m) (hfront m)
  · intro m hm
    obtain hm | hm := List.mem_append.mp hm
    · obtain ⟨s,hs,htried⟩ := h.tried m hm
      exact hrow m s hs (Or.inl htried)
    · have hcand := hm
      rw [requested_eq hnow] at hcand
      obtain ⟨s,hs,-⟩ := mem_candidates_iff.mp (List.mem_of_mem_take hcand)
      exact hrow m s (get_eq_some_iff.mpr hs) (Or.inr (hstamp m hm))

theorem turn_of_done {front back done : List UInt32} {s : TrainState} {rounds : List Round}
    (hdone : Done axis origin r front done) (hseen : r.SeenBy start) (hsince : r.SeenSince origin)
    (hkeys : r.keys = front ++ n :: back) (hs : r.get n = some s) (huntried : s.Untried axis)
    (hserved : Served axis origin start r rounds)
    (hwindow : ∀ round ∈ rounds, round.now < origin + Duration.fromSecs retryCooldownS)
    (hlong : front.length < done.length + rounds.length * bufferCap axis) :
    Turn axis n r rounds := by
  induction rounds generalizing r start s back done with
  | nil =>
    have hle := length_le_of_front hdone.nodup hdone.inFront
    rw [List.length_nil,Nat.zero_mul] at hlong
    omega
  | cons round rounds ih =>
    obtain ⟨hstart,hc,hstamp,hevict,hrest⟩ := hserved
    have hnow := hseen.mono hstart
    have horigin : origin ≤ round.now := (hsince n s hs).trans (hnow n s hs)
    by_cases hreq : n ∈ r.requested axis round.now
    · exact Or.inl hreq
    by_cases hquiet : ∃ e ∈ round.events, e.op.stamps axis = some n
    · exact Or.inr (Or.inl hquiet)
    -- passed over: the buffer went to trains in front, none of them tried before
    obtain ⟨hlen,hfront⟩ := requested_in_front hnow hkeys hs huntried hreq
    obtain ⟨hsince',⟨added,hadded⟩,hstays⟩ := hsince.run hnow horigin hc hevict
    rw [hkeys,List.append_assoc,List.cons_append] at hadded
    refine Or.inr (Or.inr (ih (hdone.round hnow hsince horigin (hwindow round List.mem_cons_self)
      hfront hc hstamp hevict) (hnow.run hc) hsince' hadded.symm
      (get_run_of_stays hs (hstays n (by rw [hs]; rfl)))
      (huntried.foldl_after fun e he hstamp' => hquiet ⟨e,he,hstamp'⟩) hrest
      (fun round' hround' => hwindow round' (List.mem_cons_of_mem round hround')) ?_))
    rw [List.length_append,hlen]
    rw [List.length_cons,Nat.succ_mul] at hlong
    omega

/-- A train never attempted has its turn once the sweeps have room for more trains than
stand in front of it, if no attempt in these sweeps goes without a stamp and all sweeps
lie within a cooldown of the earliest sighting. -/
theorem turn_comes {front back : List UInt32} {s : TrainState} {rounds : List Round}
    (hseen : r.SeenBy start) (hsince : r.SeenSince origin) (hkeys : r.keys = front ++ n :: back)
    (hs : r.get n = some s) (huntried : s.Untried axis)
    (hserved : Served axis origin start r rounds)
    (hwindow : ∀ round ∈ rounds, round.now < origin + Duration.fromSecs retryCooldownS)
    (hlong : front.length < rounds.length * bufferCap axis) : Turn axis n r rounds :=
  turn_of_done ⟨List.nodup_nil,fun _ hm => (by cases hm),fun _ hm => (by cases hm)⟩ hseen hsince
    hkeys hs huntried hserved hwindow (by rwa [List.length_nil,Nat.zero_add])

end Registry

end Turns

namespace Registry

/-- Five trains of a message at boot. -/
def fiveTrains [TickRate] : Registry :=
  new.run ([1,2,3,4,5].map fun n => ⟨0,.upsert n ⟨3,4⟩⟩)

/-- Stamps of `ns` at `now`. -/
def stampedAt (now : ℕ) (ns : List UInt32) : Round := ⟨now,ns.map fun n => ⟨now,unresolved .service n⟩⟩

/-- The fifth train has its turn in the second sweep at the latest. -/
theorem turn_comes_fifth : letI := microTicks
    Turn .service 5 fiveTrains [stampedAt 1 [1,2,3,4],stampedAt 2 [5]] := by
  let _ := microTicks
  have hc : Chronological 0
      (([1,2,3,4,5] : List UInt32).map fun n => (⟨0,.upsert n ⟨3,4⟩⟩ : Event)) := by
    simp [Chronological]
  have hfirst : fiveTrains.requested .service 1 = [1,2,3,4] := by decide +kernel
  have hsecond : (fiveTrains.run (stampedAt 1 [1,2,3,4]).events).requested .service 2 = [5] := by
    decide +kernel
  refine turn_comes (SeenBy.run (fun _ _ hs => by cases hs) hc) (fun _ _ _ => Nat.zero_le _)
    (show fiveTrains.keys = [1,2,3,4] ++ 5 :: [] by decide +kernel)
    (show fiveTrains.get 5 = some (.new ⟨3,4⟩ 0) by decide +kernel) ⟨rfl,rfl⟩ ?_ ?_ (by decide)
  · refine ⟨by decide,by simp [stampedAt,Chronological],?_,by simp [stampedAt,unresolved],by decide,
      by simp [stampedAt,Chronological],?_,by simp [stampedAt,unresolved],trivial⟩
    · rw [show fiveTrains.requested .service (stampedAt 1 [1,2,3,4]).now = _ from hfirst]
      simp [stampedAt]
    · rw [show (fiveTrains.run _).requested .service (stampedAt 2 [5]).now = _ from hsecond]
      simp [stampedAt]
  · simp only [List.forall_mem_cons]
    decide

end Registry

end NsPixels
