import NsPixels.Registry.Trace
import NsPixels.Registry.Sweep

/-!
# The retry cooldown

The time of an attempt is not stored. It is reconstructed at a sweep from
`lastSeen` and the attempt offset, so the gap between two attempts is measured
from the instant the train had last been seen when the first one was stamped.
-/

namespace NsPixels

open FixedCap Registry

/-- The operation that stamps an attempt without a result. -/
def unresolved (axis : UnknownAxis) (n : UInt32) : Op :=
  match axis with
  | .type => .setType n .unknown
  | .service => .setService n .unknown

@[simp] theorem unresolved_stamps (axis : UnknownAxis) (n : UInt32) :
    (unresolved axis n).stamps axis = some n := by
  cases axis <;> rfl

section Gap

variable [TickRate]

namespace TrainState

/-- The offset of `axis` records an attempt no earlier than `origin`. -/
structure Anchored (axis : UnknownAxis) (origin : ℕ) (s : TrainState) : Prop where
  attempted : s.attemptAgoS axis ≠ attemptNever
  origin_le : origin + Duration.fromSecs (s.attemptAgoS axis).toNat ≤ s.lastSeen

/-- An unresolved attempt leaves the axis unknown. -/
theorem after_unresolved_isUnknown (axis : UnknownAxis) (n : UInt32) (s : TrainState) (now : ℕ) :
    (s.after n ⟨now,unresolved axis n⟩).isUnknown axis = true := by
  cases axis <;> simp [unresolved,isUnknown,stampType,stampService]

/-- A refresh moves `lastSeen` at least as far as it grows the offset. -/
theorem Anchored.refresh {axis : UnknownAxis} {origin : ℕ} {s : TrainState}
    (h : Anchored axis origin s) (pixel : PixelCoord) {now : ℕ} (hnow : s.lastSeen ≤ now) :
    Anchored axis origin (s.refresh pixel now) := by
  have hago := s.refresh_attemptAgoS pixel now axis
  rw [Instant.checkedDurationSince_of_le hnow] at hago
  refine ⟨?_,?_⟩
  · rw [hago]
    exact fun he => h.attempted (bumpAttemptAgo_eq_attemptNever_iff.mp he)
  · have hgrow : ((s.refresh pixel now).attemptAgoS axis).toNat ≤
        (s.attemptAgoS axis).toNat + Duration.asSecs (now - s.lastSeen) := by
      rw [hago,bumpAttemptAgo_toNat h.attempted]
      exact Nat.min_le_left _ _
    have hsecs := Duration.fromSecs_mono hgrow
    rw [Duration.fromSecs_add] at hsecs
    have hdelta := Duration.fromSecs_asSecs_le (now - s.lastSeen)
    have horigin := h.origin_le
    rw [refresh_lastSeen]
    omega

/-- Only an attempt on the same axis moves the anchor. -/
theorem Anchored.after {axis : UnknownAxis} {origin : ℕ} {n : UInt32} {s : TrainState}
    {e : Event} (h : Anchored axis origin s) (hquiet : e.op.stamps axis ≠ some n)
    (hnow : s.lastSeen ≤ e.now) : Anchored axis origin (s.after n e) := by
  obtain ⟨pixel,he⟩ | ⟨hago,_,hseen⟩ := after_of_quiet hquiet s
  · rw [he]
    exact h.refresh pixel hnow
  · exact ⟨hago ▸ h.attempted,by rw [hago,hseen]; exact h.origin_le⟩

/-- The anchor survives every run without an attempt on the axis. -/
theorem Anchored.foldl_after {axis : UnknownAxis} {origin start : ℕ} {n : UInt32}
    {s : TrainState} {es : List Event} (h : Anchored axis origin s)
    (hquiet : ∀ e ∈ es, e.op.stamps axis ≠ some n) (hc : Chronological start es)
    (hstart : s.lastSeen ≤ start) : Anchored axis origin (es.foldl (TrainState.after n) s) := by
  induction es generalizing s start with
  | nil => exact h
  | cons e es ih =>
    have hle : s.lastSeen ≤ e.now := hstart.trans hc.1
    exact ih (h.after (hquiet e List.mem_cons_self) hle)
      (fun e' he' => hquiet e' (List.mem_cons_of_mem e he')) hc.2
      (after_lastSeen_le hle (Nat.le_refl _))

/-- A row with an anchor is a candidate only once the cooldown has passed since
its anchor. -/
theorem Anchored.le_of_wants {axis : UnknownAxis} {origin now cooldownS : ℕ} {s : TrainState}
    (h : Anchored axis origin s) (hnow : s.lastSeen ≤ now)
    (hw : wants s axis (Duration.asSecs (now - s.lastSeen)) cooldownS = true) :
    origin + Duration.fromSecs cooldownS ≤ now := by
  rw [wants,Bool.and_eq_true,ready_iff h.attempted] at hw
  have hsecs := Duration.fromSecs_mono hw.2
  rw [Duration.fromSecs_add] at hsecs
  have hsince := Duration.fromSecs_asSecs_le (now - s.lastSeen)
  have horigin := h.origin_le
  omega

end TrainState

/-- `n` is among what a sweep appended to the buffer of `axis`. -/
def Appended {N M : ℕ} (axis : UnknownAxis) (n : UInt32)
    (before after : Vec UInt32 N × Vec UInt32 M) : Prop :=
  match axis with
  | .type => n ∈ after.1.toList.drop before.1.len
  | .service => n ∈ after.2.toList.drop before.2.len

/-- A sweep appends only candidates. -/
theorem mem_candidates_of_appended {N M : ℕ} {axis : UnknownAxis} {n : UInt32} {r : Registry}
    {now cooldown : ℕ} {tBuf tBuf' : Vec UInt32 N} {sBuf sBuf' : Vec UInt32 M}
    (hnow : r.SeenBy now)
    (hrun : r.pendingEnrichment tBuf sBuf cooldown now = some (tBuf',sBuf'))
    (happ : Appended axis n (tBuf,sBuf) (tBuf',sBuf')) :
    n ∈ candidates axis now (Duration.asSecs cooldown) r.map.entries := by
  obtain ⟨t,s,hrun',ht,hs⟩ := pendingEnrichment_spec hnow.entries cooldown tBuf sBuf
  rw [hrun,Option.some.injEq,Prod.mk.injEq] at hrun'
  obtain ⟨rfl,rfl⟩ := hrun'
  cases axis with
  | type =>
    rw [Appended,ht,Vec.len,List.drop_left] at happ
    exact List.mem_of_mem_take happ
  | service =>
    rw [Appended,hs,Vec.len,List.drop_left] at happ
    exact List.mem_of_mem_take happ

/-- A sweep into empty buffers as large as the registry appends every candidate. -/
theorem exists_sweep_appends {axis : UnknownAxis} {n : UInt32} {r : Registry} {now cooldown : ℕ}
    (hnow : r.SeenBy now)
    (hn : n ∈ candidates axis now (Duration.asSecs cooldown) r.map.entries) :
    ∃ tBuf' sBuf' : Vec UInt32 maxTrains,
      r.pendingEnrichment Vec.empty Vec.empty cooldown now = some (tBuf',sBuf') ∧
        Appended axis n (Vec.empty,Vec.empty) (tBuf',sBuf') := by
  obtain ⟨tBuf',sBuf',hrun,ht,hs⟩ :=
    pendingEnrichment_spec (N := maxTrains) (M := maxTrains) hnow.entries cooldown Vec.empty Vec.empty
  have hroom : ∀ axis', (candidates axis' now (Duration.asSecs cooldown) r.map.entries).length ≤
      maxTrains := by
    intro axis'
    rw [candidates,List.length_map]
    exact (List.length_filter_le _ _).trans r.map.length_le
  refine ⟨tBuf',sBuf',hrun,?_⟩
  cases axis with
  | type =>
    rw [Appended,ht]
    simpa [List.take_of_length_le (hroom .type)] using hn
  | service =>
    rw [Appended,hs]
    simpa [List.take_of_length_le (hroom .service)] using hn

/-- After the stamp of an attempt of `n` on `axis` made in `r` at `a`: however the
run goes on without another attempt, every sweep that appends `n` comes at least
`cooldownS` seconds after `a`. -/
def GapKept (axis : UnknownAxis) (n : UInt32) (r : Registry) (a cooldownS : ℕ) : Prop :=
  ∀ (es : List Event) (p N M : ℕ) (tBuf tBuf' : Vec UInt32 N) (sBuf sBuf' : Vec UInt32 M),
    Chronological a es → lastInstant a es ≤ p → Stays n r es →
    (∀ e ∈ es, e.op.stamps axis ≠ some n) →
    (r.run es).pendingEnrichment tBuf sBuf (Duration.fromSecs cooldownS) p = some (tBuf',sBuf') →
    Appended axis n (tBuf,sBuf) (tBuf',sBuf') → Duration.fromSecs cooldownS ≤ p - a

/-- A sweep after the stamp appends `n` only once the cooldown has passed since the
train had last been seen when it was stamped. -/
theorem le_of_appended {axis : UnknownAxis} {n : UInt32} {r : Registry} {s : TrainState}
    {a p cooldownS N M : ℕ} {es : List Event} {tBuf tBuf' : Vec UInt32 N}
    {sBuf sBuf' : Vec UInt32 M} (hseen : r.SeenBy a) (hs : r.get n = some s)
    (hanchor : s.Anchored axis s.lastSeen) (hc : Chronological a es) (hp : lastInstant a es ≤ p)
    (hstays : Stays n r es) (hquiet : ∀ e ∈ es, e.op.stamps axis ≠ some n)
    (hrun : (r.run es).pendingEnrichment tBuf sBuf (Duration.fromSecs cooldownS) p =
      some (tBuf',sBuf'))
    (happ : Appended axis n (tBuf,sBuf) (tBuf',sBuf')) :
    s.lastSeen + Duration.fromSecs cooldownS ≤ p := by
  have hseen' : (r.run es).SeenBy p := (hseen.run hc).mono hp
  obtain ⟨v,hv,hw⟩ := mem_candidates_iff.mp (mem_candidates_of_appended hseen' hrun happ)
  have hrow := get_run_of_stays hs hstays
  rw [get_eq_some_iff.mpr hv,Option.some.injEq] at hrow
  rw [Duration.asSecs_fromSecs] at hw
  have hanchor' : v.Anchored axis s.lastSeen :=
    hrow ▸ hanchor.foldl_after hquiet hc (hseen n s hs)
  exact hanchor'.le_of_wants (hseen' n v (get_eq_some_iff.mpr hv)) hw

/-- The gap between attempts is kept in every continuation exactly when the attempt
was stamped at the instant the train was last seen. -/
theorem gapKept_iff (axis : UnknownAxis) (pre : List Event) (n : UInt32) (a cooldownS : ℕ)
    (s : TrainState) (hc : Chronological 0 (pre ++ [⟨a,unresolved axis n⟩]))
    (hs : (Registry.new.run pre).get n = some s) :
    GapKept axis n (Registry.new.run (pre ++ [⟨a,unresolved axis n⟩])) a cooldownS ↔
      cooldownS = 0 ∨ s.lastSeen = a := by
  rw [chronological_append] at hc
  have hseen₀ : (Registry.new.run pre).SeenBy (lastInstant 0 pre) :=
    SeenBy.run (fun n s hs => by cases hs) hc.1
  have hle : s.lastSeen ≤ a := (hseen₀ n s hs).trans hc.2.1
  rw [run_append,run_cons,run_nil]
  generalize hr : (Registry.new.run pre).apply ⟨a,unresolved axis n⟩ = r
  have hseen : r.SeenBy a := hr ▸ (hseen₀.mono hc.2.1).apply (Nat.le_refl _)
  have hrow : r.get n = some (s.after n ⟨a,unresolved axis n⟩) := by
    cases axis
    · simp [← hr,unresolved,Registry.apply,hs]
    · simp [← hr,unresolved,Registry.apply,hs]
  obtain ⟨hago,hlast⟩ := TrainState.after_of_stamps
    (show (⟨a,unresolved axis n⟩ : Event).op.stamps axis = some n from unresolved_stamps axis n) s
  rw [attemptOffsetS_of_le hle] at hago
  have hanchor : (s.after n ⟨a,unresolved axis n⟩).Anchored axis
      (s.after n ⟨a,unresolved axis n⟩).lastSeen :=
    ⟨by rw [hago]; decide,by rw [hago]; simp [Duration.fromSecs]⟩
  constructor
  · intro hgap
    by_contra hne
    rw [not_or] at hne
    have hpos := Duration.fromSecs_pos (Nat.pos_of_ne_zero hne.1)
    -- sweep as soon as the cooldown has passed since the train was last seen
    have hp : a ≤ max a (s.lastSeen + Duration.fromSecs cooldownS) := le_max_left _ _
    have hmem : n ∈ candidates axis (max a (s.lastSeen + Duration.fromSecs cooldownS))
        (Duration.asSecs (Duration.fromSecs cooldownS)) r.map.entries := by
      refine mem_candidates_iff.mpr ⟨_,get_eq_some_iff.mp hrow,?_⟩
      rw [wants,TrainState.after_unresolved_isUnknown,Bool.true_and,ready_iff hanchor.attempted,
        hago,hlast,Duration.asSecs_fromSecs]
      refine le_trans (Duration.le_asSecs_iff.mpr ?_) (Nat.le_add_right _ _)
      omega
    obtain ⟨tBuf',sBuf',hrun,happ⟩ := exists_sweep_appends (hseen.mono hp) hmem
    have hge := hgap [] _ _ _ _ _ _ _ trivial hp (by rw [Stays,hrow]; rfl) (by simp) hrun happ
    omega
  · rintro (rfl | rfl) es p N M tBuf tBuf' sBuf sBuf' hchron hp hstays hquiet hrun happ
    · simp [Duration.fromSecs]
    · have := le_of_appended hseen hrow hanchor hchron hp hstays hquiet hrun happ
      omega

end Gap

/-- Train 7, seen at boot and stamped in the same tick. -/
theorem gapKept_stamped_when_seen : letI := microTicks
    GapKept .type 7 (Registry.new.run ([⟨0,.upsert 7 ⟨3,4⟩⟩] ++ [⟨0,unresolved .type 7⟩])) 0 120 ↔
      120 = 0 ∨ (TrainState.new ⟨3,4⟩ 0).lastSeen = 0 := by
  let _ := microTicks
  exact gapKept_iff .type [⟨0,.upsert 7 ⟨3,4⟩⟩] 7 0 120 (TrainState.new ⟨3,4⟩ 0)
    (by simp [Chronological]) (by decide)

/-- Train 7, seen at boot and stamped after 100 s, is requested again 20 s later. -/
theorem not_gapKept_stamped_late : letI := microTicks
    ¬ GapKept .type 7
      (Registry.new.run [⟨0,.upsert 7 ⟨3,4⟩⟩,⟨Duration.fromSecs 100,unresolved .type 7⟩])
      (Duration.fromSecs 100) 120 := by
  let _ := microTicks
  intro h
  have hgap := h [] (Duration.fromSecs 120) 32 4 Vec.empty ⟨[7],by decide⟩ Vec.empty ⟨[7],by decide⟩
    trivial (by decide) (show Option.isSome _ = true by decide) (by simp) (by decide)
    (show (7 : UInt32) ∈ [7] by decide)
  exact absurd hgap (by decide)

end NsPixels
