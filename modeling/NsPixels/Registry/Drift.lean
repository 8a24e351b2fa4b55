import NsPixels.Registry.Cooldown

/-!
# The drift of the cooldown estimate

At a sweep the time since an attempt is estimated by the seconds since `lastSeen` plus
the attempt offset. Each refresh in between cuts off less than a second, and so do the
stamp and the sweep itself.
-/

namespace NsPixels

open Registry

section Estimate

variable [TickRate]

theorem attemptOffsetS_toNat (lastSeen now : ℕ) :
    (attemptOffsetS lastSeen now).toNat = min (Duration.asSecs (lastSeen - now)) 65534 := by
  rcases Nat.lt_or_ge lastSeen now with h | h
  · rw [attemptOffsetS_of_le h.le,Nat.sub_eq_zero_of_le h.le]
    simp
  · rw [attemptOffsetS,Instant.checkedDurationSince_of_le h]
    exact toNat_ofNat_min _

namespace TrainState

/-- The offset of `axis` accounts for the time from `origin` to `lastSeen`, up to `k`
truncations beside the one of the stamp. -/
structure Tracks (axis : UnknownAxis) (origin k : ℕ) (s : TrainState) : Prop
    extends Anchored axis origin s where
  lt_of_unsaturated : (s.attemptAgoS axis).toNat ≠ 65534 →
    s.lastSeen < origin + Duration.fromSecs ((s.attemptAgoS axis).toNat + k + 1)

/-- The stamp: the row was seen at the origin, or the attempt comes before that. -/
theorem tracks_of_stamps {axis : UnknownAxis} {n : UInt32} {e : Event}
    (h : e.op.stamps axis = some n) (s : TrainState) :
    (s.after n e).Tracks axis (min e.now s.lastSeen) 0 := by
  obtain ⟨hago,hseen⟩ := after_of_stamps h s
  have hsecs := attemptOffsetS_toNat s.lastSeen e.now
  refine ⟨⟨?_,?_⟩,fun hne => ?_⟩
  · rw [hago]
    exact attemptOffsetS_ne_attemptNever _ _
  · have hle := Duration.fromSecs_asSecs_le (s.lastSeen - e.now)
    have hmin := Duration.fromSecs_mono
      (Nat.min_le_left (Duration.asSecs (s.lastSeen - e.now)) 65534)
    rw [hago,hseen,hsecs]
    omega
  · rw [hago,hsecs] at hne
    rw [hago,hseen,hsecs,
      Nat.min_eq_left (show Duration.asSecs (s.lastSeen - e.now) ≤ 65534 by omega)]
    have hlt := Duration.lt_fromSecs_asSecs_add_one (s.lastSeen - e.now)
    rw [Nat.add_zero]
    omega

/-- A refresh is one truncation more. -/
theorem Tracks.refresh {axis : UnknownAxis} {origin k : ℕ} {s : TrainState}
    (h : Tracks axis origin k s) (pixel : PixelCoord) {now : ℕ} (hnow : s.lastSeen ≤ now) :
    Tracks axis origin (k + 1) (s.refresh pixel now) := by
  refine ⟨h.toAnchored.refresh pixel hnow,fun hne => ?_⟩
  have hago := s.refresh_attemptAgoS pixel now axis
  rw [Instant.checkedDurationSince_of_le hnow] at hago
  have hbump : ((s.refresh pixel now).attemptAgoS axis).toNat =
      min ((s.attemptAgoS axis).toNat + Duration.asSecs (now - s.lastSeen)) 65534 := by
    rw [hago]
    exact bumpAttemptAgo_toNat h.attempted
  rw [hbump] at hne
  rw [hbump,Nat.min_eq_left (by omega),refresh_lastSeen]
  have hlast := h.lt_of_unsaturated (by omega)
  have hlt := Duration.lt_fromSecs_asSecs_add_one (now - s.lastSeen)
  simp only [Duration.fromSecs_add] at hlast hlt ⊢
  omega

/-- Through a run without another attempt the estimate is off by one truncation for
each upsert. -/
theorem Tracks.foldl_after {axis : UnknownAxis} {origin k start : ℕ} {n : UInt32}
    {s : TrainState} {es : List Event} (h : Tracks axis origin k s)
    (hquiet : ∀ e ∈ es, e.op.stamps axis ≠ some n)
    (hc : Chronological start (es.filter (Event.upserts n))) (hstart : s.lastSeen ≤ start) :
    Tracks axis origin (k + es.countP (Event.upserts n))
        (es.foldl (TrainState.after n) s) ∧
      (es.foldl (TrainState.after n) s).lastSeen ≤
        lastInstant start (es.filter (Event.upserts n)) := by
  induction es generalizing s k start with
  | nil => exact ⟨h,hstart⟩
  | cons e es ih =>
    have hquiet' : ∀ e' ∈ es, e'.op.stamps axis ≠ some n :=
      fun e' he' => hquiet e' (List.mem_cons_of_mem e he')
    rw [List.foldl_cons]
    cases hup : e.upserts n with
    | true =>
      rw [List.filter_cons_of_pos hup] at hc ⊢
      rw [List.countP_cons_of_pos hup,← Nat.add_assoc,Nat.add_right_comm]
      obtain ⟨pixel,hafter⟩ := after_of_upserts hup s
      rw [hafter]
      exact ih (h.refresh pixel (hstart.trans hc.1)) hquiet' hc.2 (Nat.le_refl _)
    | false =>
      have hneg : ¬ e.upserts n = true := by rw [hup]; nofun
      rw [List.filter_cons_of_neg hneg] at hc ⊢
      rw [List.countP_cons_of_neg hneg]
      obtain ⟨hago,_,hseen⟩ := after_of_idle hup (hquiet e List.mem_cons_self) s
      refine ih ⟨⟨?_,?_⟩,?_⟩ hquiet' hc (hseen ▸ hstart)
      · exact hago ▸ h.attempted
      · rw [hago,hseen]
        exact h.origin_le
      · rw [hago,hseen]
        exact h.lt_of_unsaturated

end TrainState

/-- The seconds since the last attempt on `axis`, as a sweep at `p` estimates them. -/
def estimateS (s : TrainState) (axis : UnknownAxis) (p : ℕ) : ℕ :=
  Duration.asSecs (p - s.lastSeen) + (s.attemptAgoS axis).toNat

/-- The estimate at `p` from a row that was refreshed `k` times since an attempt is within
`k + 2` seconds of the time since `origin`, so the cooldown ends at most that much late. -/
structure TrainState.Drifts (axis : UnknownAxis) (origin k p : ℕ) (v : TrainState) : Prop where
  attempted : v.attemptAgoS axis ≠ TrainState.attemptNever
  lastSeen_le : v.lastSeen ≤ p
  le_since : Duration.fromSecs (estimateS v axis p) ≤ p - origin
  since_lt : (v.attemptAgoS axis).toNat ≠ 65534 →
    p - origin < Duration.fromSecs (estimateS v axis p + k + 2)
  ready_after : ∀ cooldown ≤ Duration.fromSecs 65534,
    cooldown + Duration.fromSecs (k + 2) ≤ p - origin →
    ready (v.attemptAgoS axis) (Duration.asSecs (p - v.lastSeen)) (Duration.asSecs cooldown) = true

/-- A sweep turns the offset into an estimate, with one truncation more. -/
theorem TrainState.Tracks.drifts {axis : UnknownAxis} {origin k p : ℕ} {v : TrainState}
    (h : v.Tracks axis origin k) (hp : v.lastSeen ≤ p) : v.Drifts axis origin k p := by
  have horigin := h.origin_le
  have hsince := Duration.fromSecs_asSecs_le (p - v.lastSeen)
  have hlt := Duration.lt_fromSecs_asSecs_add_one (p - v.lastSeen)
  have hlag : (v.attemptAgoS axis).toNat ≠ 65534 →
      p - origin < Duration.fromSecs (estimateS v axis p + k + 2) := by
    intro hsat
    have hlast := h.lt_of_unsaturated hsat
    rw [estimateS,show ∀ a b : ℕ, a + b + k + 2 = (a + 1) + (b + k + 1) by omega,
      Duration.fromSecs_add]
    omega
  refine ⟨h.attempted,hp,?_,hlag,fun cooldown hcool hready => ?_⟩
  · rw [estimateS,Duration.fromSecs_add]
    omega
  · rw [ready_iff h.attempted]
    by_cases hsat : (v.attemptAgoS axis).toNat = 65534
    · have hsecs := Nat.div_le_div_right (c := TickRate.hz) hcool
      rw [← Duration.asSecs,← Duration.asSecs,Duration.asSecs_fromSecs] at hsecs
      omega
    · have hlag := hlag hsat
      rw [Nat.add_assoc,Duration.fromSecs_add] at hlag
      by_contra hlt'
      have hmono := Duration.fromSecs_mono (Nat.le_of_lt (not_le.mp hlt'))
      have hfloor := Duration.fromSecs_asSecs_le cooldown
      rw [← estimateS] at hmono
      omega

/-- After an attempt, and however the run goes on without another one, the estimate
drifts by at most one second for each upsert of the train and two more. -/
theorem estimate_drift (axis : UnknownAxis) (r : Registry) (n : UInt32) (s : TrainState)
    (stamp : Event) (es : List Event) (p : ℕ) (hs : r.get n = some s)
    (hstamp : stamp.op.stamps axis = some n) (hquiet : ∀ e ∈ es, e.op.stamps axis ≠ some n)
    (hstays : Stays n r (stamp :: es))
    (hc : Chronological (max stamp.now s.lastSeen) (es.filter (Event.upserts n)))
    (hp : lastInstant (max stamp.now s.lastSeen) (es.filter (Event.upserts n)) ≤ p) :
    ∃ v, (r.run (stamp :: es)).get n = some v ∧
      v.Drifts axis (min stamp.now s.lastSeen) (es.countP (Event.upserts n)) p := by
  have hstart := (TrainState.after_of_stamps hstamp s).2.trans_le (le_max_right stamp.now s.lastSeen)
  obtain ⟨htracks,hseen⟩ :=
    (TrainState.tracks_of_stamps hstamp s).foldl_after hquiet hc hstart
  rw [Nat.zero_add] at htracks
  exact ⟨_,get_run_of_stays hs hstays,htracks.drifts (hseen.trans hp)⟩

end Estimate

/-- Train 7, seen at boot, stamped a tick later, refreshed after 0.6 s and swept after
1.3 s. -/
theorem estimate_drift_halfSeconds : letI := microTicks
    ∃ v, ((Registry.new.run [⟨0,.upsert 7 ⟨3,4⟩⟩]).run
        (⟨1,.setType 7 .unknown⟩ :: [⟨600000,.upsert 7 ⟨3,4⟩⟩])).get 7 = some v ∧
      v.Drifts .type (min 1 0) 1 1300000 := by
  let _ := microTicks
  exact estimate_drift .type (Registry.new.run [⟨0,.upsert 7 ⟨3,4⟩⟩]) 7 (TrainState.new ⟨3,4⟩ 0)
    ⟨1,.setType 7 .unknown⟩ [⟨600000,.upsert 7 ⟨3,4⟩⟩] 1300000 (by decide) rfl (by decide)
    ⟨by decide,by decide,(by decide : Option.isSome _ = true)⟩ ⟨by decide,trivial⟩ (by decide)

end NsPixels
