import NsPixels.Enrichment
import NsPixels.Registry.Refreshes

/-!
# The range of the attempt offsets

A row is evicted five minutes after it was last seen, not after its last attempt. The
offset of an attempt is carried along by every refresh, so it is bounded by five minutes
only as long as no refresh comes later than that.
-/

namespace NsPixels.Enrichment

open FixedCap Registry

/-- What writes the registry: a feed message, or the result of an attempt. -/
inductive Update
  | message (trains : List Train)
  | typeResult (number : UInt32) (typ : TrainType)
  | serviceResult (number : UInt32) (service : ServiceType)

/-- An update together with the instant it is made with. -/
structure TimedUpdate where
  now : ℕ
  update : Update

/-- The bound that the offsets are documented to keep. -/
def offsetBoundS : ℕ := 300

/-- An offset is the sentinel or within the bound. -/
def InRange (agoS : UInt16) : Prop :=
  agoS = TrainState.attemptNever ∨ agoS.toNat ≤ offsetBoundS

/-- The offsets of every row are in range. -/
def OffsetsInRange (r : Registry) : Prop :=
  ∀ n row, r.get n = some row → ∀ axis, InRange (row.attemptAgoS axis)

section Runs

variable [TickRate]

/-- The registry operations of an update. -/
def TimedUpdate.events (u : TimedUpdate) : List Event :=
  match u.update with
  | .message trains => messageEvents u.now trains
  | .typeResult number typ => [⟨u.now,.setType number typ⟩]
  | .serviceResult number service => [⟨u.now,.setService number service⟩]

/-- The registry and the instant of its last update. -/
structure Updated where
  clock : ℕ
  registry : Registry

/-- Updates at non-decreasing instants, from boot. -/
def updates : Machine Updated TimedUpdate where
  init := ⟨0,Registry.new⟩
  step s u := if s.clock ≤ u.now then some ⟨u.now,s.registry.run u.events⟩ else none

/-- The registry after the eviction with which a message at `now` begins. -/
def evicted (now : ℕ) (r : Registry) : Registry := r.run (messageEvents now [])

/-- A message refreshes no attempted train so late that its offset would pass the bound. -/
def RefreshesInTime (s : Updated) (u : TimedUpdate) : Prop :=
  match u.update with
  | .message trains =>
    ∀ t ∈ trains, ∀ row, (evicted u.now s.registry).get t.number = some row → ∀ axis,
      row.attemptAgoS axis = TrainState.attemptNever ∨
        (row.attemptAgoS axis).toNat + Duration.asSecs (u.now - row.lastSeen) ≤ offsetBoundS
  | _ => True

/-! ### The upserts of a message -/

/-- The upserts of a message at `now`. -/
def upsertsAt (now : ℕ) (trains : List Train) : List Event :=
  trains.map fun t => ⟨now,.upsert t.number t.pixel⟩

theorem run_messageEvents (now : ℕ) (trains : List Train) (r : Registry) :
    r.run (messageEvents now trains) = (evicted now r).run (upsertsAt now trains) := by
  rw [evicted,← run_append,messageEvents,messageEvents,List.map_nil,List.append_nil]
  rfl

theorem get_of_get_evicted {now : ℕ} {r : Registry} {n : UInt32} {row : TrainState}
    (h : (evicted now r).get n = some row) : r.get n = some row := by
  rw [evicted,messageEvents,List.map_nil,List.append_nil] at h
  split at h
  · rw [run_cons,run_nil,apply,get_evictOlderThan] at h
    split at h
    · cases h
    · exact h
  · exact h

/-- All refreshes of a row at one instant grow its offsets as the first of them does. -/
theorem foldl_upsertsAt {now : ℕ} {n : UInt32} {row : TrainState} (trains : List Train)
    (hseen : row.lastSeen ≤ now) (axis : UnknownAxis) :
    ((upsertsAt now trains).foldl (TrainState.after n) row).attemptAgoS axis =
      if n ∈ trains.map Train.number then
        bumpAttemptAgo (row.attemptAgoS axis) (Duration.asSecs (now - row.lastSeen))
      else row.attemptAgoS axis := by
  induction trains generalizing row with
  | nil => rfl
  | cons t trains ih =>
    rw [upsertsAt,List.map_cons,List.foldl_cons,TrainState.after_upsert]
    simp only [List.map_cons,List.mem_cons]
    by_cases ht : t.number = n
    · have hago := row.refresh_attemptAgoS t.pixel now axis
      rw [Instant.checkedDurationSince_of_le hseen] at hago
      rw [if_pos ht,if_pos (Or.inl ht.symm)]
      have hnow : (row.refresh t.pixel now).lastSeen ≤ now := Nat.le_refl now
      apply (ih hnow).trans
      rw [TrainState.refresh_lastSeen,Nat.sub_self,Duration.asSecs_zero,hago]
      split
      · exact bumpAttemptAgo_add _ _ 0
      · rfl
    · simp only [if_neg ht,Ne.symm ht,false_or]
      exact ih hseen

/-- Upserts keep a registered train registered. -/
theorem stays_upsertsAt {now : ℕ} {n : UInt32} {r : Registry} (trains : List Train)
    (h : (r.get n).isSome) : Stays n r (upsertsAt now trains) := by
  induction trains generalizing r with
  | nil => exact h
  | cons t trains ih =>
    refine ⟨h,ih ?_⟩
    rcases r.get_apply_cases ⟨now,.upsert t.number t.pixel⟩ n with
      ⟨s,_,hr⟩ | ⟨_,hop,_⟩ | ⟨_,_,_,hr⟩ | ⟨hn,_⟩
    · rw [hr]; rfl
    · cases hop
    · rw [hr]; rfl
    · rw [hn] at h
      cases h

/-- A row that the upserts of a message insert has no attempt. -/
theorem attemptNever_upsertsAt {now : ℕ} {n : UInt32} {r : Registry} (trains : List Train)
    {axis : UnknownAxis}
    (h : ∀ row, r.get n = some row → row.attemptAgoS axis = TrainState.attemptNever) :
    ∀ row, (r.run (upsertsAt now trains)).get n = some row →
      row.attemptAgoS axis = TrainState.attemptNever := by
  induction trains generalizing r with
  | nil => exact h
  | cons t trains ih =>
    refine ih fun row hrow => ?_
    rcases r.get_apply_cases ⟨now,.upsert t.number t.pixel⟩ n with
      ⟨s,hs,hr⟩ | ⟨_,_,hr⟩ | ⟨_,_,_,hr⟩ | ⟨_,hr⟩
    · rw [hrow,Option.some.injEq] at hr
      rw [hr,TrainState.after_upsert]
      split
      · rw [TrainState.refresh_attemptAgoS,bumpAttemptAgo_eq_attemptNever_iff]
        exact h s hs
      · exact h s hs
    · rw [hrow] at hr
      cases hr
    · rw [hrow,Option.some.injEq] at hr
      rw [hr]
      exact TrainState.new_attemptAgoS _ _ _
    · rw [hrow] at hr
      cases hr

/-! ### One update -/

omit [TickRate] in
theorem inRange_bump_iff {agoS : UInt16} {d : ℕ} :
    InRange (bumpAttemptAgo agoS d) ↔
      agoS = TrainState.attemptNever ∨ agoS.toNat + d ≤ offsetBoundS := by
  rw [InRange,bumpAttemptAgo_eq_attemptNever_iff]
  by_cases h : agoS = TrainState.attemptNever
  · simp only [h,true_or]
  · rw [bumpAttemptAgo_toNat h,show offsetBoundS = 300 from rfl]
    simp only [h,false_or]
    omega

/-- A message keeps the offsets in range exactly when it refreshes in time. -/
theorem message_inRange_iff {s : Updated} {now : ℕ} {trains : List Train}
    (hr : OffsetsInRange s.registry) (hseen : s.registry.SeenBy now) :
    OffsetsInRange (s.registry.run (messageEvents now trains)) ↔
      RefreshesInTime s ⟨now,.message trains⟩ := by
  rw [run_messageEvents]
  have hrow : ∀ {n row}, (evicted now s.registry).get n = some row →
      ((evicted now s.registry).run (upsertsAt now trains)).get n =
        some ((upsertsAt now trains).foldl (TrainState.after n) row) := fun h =>
    get_run_of_stays h (stays_upsertsAt trains (by rw [h]; rfl))
  have hago : ∀ {n row}, (evicted now s.registry).get n = some row → ∀ axis,
      ((upsertsAt now trains).foldl (TrainState.after n) row).attemptAgoS axis =
        if n ∈ trains.map Train.number then
          bumpAttemptAgo (row.attemptAgoS axis) (Duration.asSecs (now - row.lastSeen))
        else row.attemptAgoS axis := fun h =>
    foldl_upsertsAt trains (hseen _ _ (get_of_get_evicted h))
  constructor
  · intro hrange t ht row h axis
    have hin := hrange _ _ (hrow h) axis
    rw [hago h,if_pos (List.mem_map_of_mem ht)] at hin
    exact inRange_bump_iff.mp hin
  · intro htime n row' h' axis
    cases h : (evicted now s.registry).get n with
    | none => exact Or.inl (attemptNever_upsertsAt trains (by simp [h]) row' h')
    | some row =>
      rw [hrow h,Option.some.injEq] at h'
      rw [← h',hago h]
      split
      · next hn =>
        obtain ⟨t,ht,rfl⟩ := List.mem_map.mp hn
        exact inRange_bump_iff.mpr (htime t ht row h axis)
      · exact hr n row (get_of_get_evicted h) axis

/-- A result keeps the offsets in range: it is stamped after the train was seen. -/
theorem result_inRange {r : Registry} {e : Event} (hr : OffsetsInRange r) (hseen : r.SeenBy e.now)
    (hev : ∀ cutoff, e.op ≠ .evictOlderThan cutoff) (hup : ∀ n, e.upserts n = false) :
    OffsetsInRange (r.apply e) := by
  intro n row hrow axis
  rcases r.get_apply_cases e n with ⟨s,hs,h⟩ | ⟨cutoff,hop,_⟩ | ⟨_,hop,_⟩ | ⟨_,h⟩
  · rw [hrow,Option.some.injEq] at h
    rw [h]
    by_cases hstamp : e.op.stamps axis = some n
    · rw [(TrainState.after_of_stamps hstamp s).1,attemptOffsetS_of_le (hseen n s hs)]
      exact Or.inr (by decide)
    · rw [(TrainState.after_of_idle (hup n) hstamp s).1]
      exact hr n s hs axis
  · exact absurd hop (hev cutoff)
  · have := hup n
    rw [Event.upserts,hop] at this
    simp at this
  · rw [hrow] at h
    cases h

theorem TimedUpdate.events_now {u : TimedUpdate} : ∀ e ∈ u.events, e.now = u.now := by
  obtain ⟨now,update⟩ := u
  cases update with
  | message trains => exact messageEvents_now
  | typeResult number typ => exact fun e he => List.mem_singleton.mp he ▸ rfl
  | serviceResult number service => exact fun e he => List.mem_singleton.mp he ▸ rfl

theorem updates_step_iff {s s' : Updated} {u : TimedUpdate} :
    updates.step s u = some s' ↔
      s.clock ≤ u.now ∧ s' = ⟨u.now,s.registry.run u.events⟩ := by
  change (if s.clock ≤ u.now then some _ else none) = some s' ↔ _
  split
  · next h => simp only [h,true_and,Option.some.injEq,eq_comm]
  · next h => simp only [h,false_and,reduceCtorEq]

/-- No row was seen after the last update. -/
theorem seenBy_run {us : List TimedUpdate} {s : Updated} (h : updates.run us = some s) :
    s.registry.SeenBy s.clock := by
  refine Machine.invariant (P := fun s : Updated => s.registry.SeenBy s.clock)
    (fun _ _ hs => by cases hs) (fun s u s' hs ht => ?_) h
  obtain ⟨hle,rfl⟩ := updates_step_iff.mp ht
  exact (hs.mono hle).run_of_le fun e he => (TimedUpdate.events_now e he).le

/-- From a state in range an update leads to one exactly when it refreshes in time. -/
theorem step_inRange_iff {s : Updated} {u : TimedUpdate} (hr : OffsetsInRange s.registry)
    (hseen : s.registry.SeenBy u.now) :
    OffsetsInRange (s.registry.run u.events) ↔ RefreshesInTime s u := by
  obtain ⟨now,update⟩ := u
  cases update with
  | message trains => exact message_inRange_iff hr hseen
  | typeResult number typ =>
    exact iff_of_true (result_inRange (e := ⟨now,.setType number typ⟩) hr hseen nofun
      fun _ => rfl) trivial
  | serviceResult number service =>
    exact iff_of_true (result_inRange (e := ⟨now,.setService number service⟩) hr hseen nofun
      fun _ => rfl) trivial

/-- All states a run passes through keep the documented range exactly when none of its
messages refreshes an attempted train so late that the offset passes the bound. -/
theorem offsetsInRange_run_iff (us : List TimedUpdate) :
    (∀ pre post s, us = pre ++ post → updates.run pre = some s → OffsetsInRange s.registry) ↔
      updates.Always (fun s u _ => RefreshesInTime s u) us := by
  refine Machine.reached_iff_always (Q := fun s : Updated => OffsetsInRange s.registry)
    (fun _ _ h => by cases h) fun pre s u s' hrun hr ht => ?_
  obtain ⟨hle,rfl⟩ := updates_step_iff.mp ht
  exact step_inRange_iff hr ((seenBy_run hrun).mono hle)

end Runs

/-- Train 7 is resolved when it is first seen and then seen every 200 s. -/
def resolvedAndRefreshed [TickRate] : List TimedUpdate :=
  [⟨0,.message [⟨7,⟨3,4⟩⟩]⟩,⟨0,.typeResult 7 .virm⟩,
    ⟨Duration.fromSecs 200,.message [⟨7,⟨3,5⟩⟩]⟩,⟨Duration.fromSecs 400,.message [⟨7,⟨3,6⟩⟩]⟩]

/-- Its offset is 400 after the second refresh. -/
theorem not_offsetsInRange_refreshed : letI := microTicks
    ∃ s, updates.run resolvedAndRefreshed = some s ∧ ¬ OffsetsInRange s.registry := by
  let _ := microTicks
  let row : TrainState := ⟨⟨3,6⟩,Duration.fromSecs 400,.virm,.unknown,400,TrainState.attemptNever⟩
  have hrun : (updates.run resolvedAndRefreshed).map (fun s => s.registry.get 7) =
      some (some row) := by decide +kernel
  obtain ⟨s,hs,hrow⟩ := Option.map_eq_some_iff.mp hrun
  refine ⟨s,hs,fun hr => ?_⟩
  obtain h | h := hr 7 row hrow .type
  · exact absurd h (by decide)
  · exact absurd h (by decide)

end NsPixels.Enrichment
