import NsPixels.Registry.Trace

/-!
# Repeated refreshes

Each refresh grows the attempt offsets by the whole seconds since the one before it. The
fractions that are cut off add up: a chain of refreshes and the single refresh at its
end agree as long as less than a second has been cut off.
-/

namespace NsPixels

open Registry

/-! ### Growing an offset -/

/-- Two bumps are one by the sum. -/
theorem bumpAttemptAgo_add (agoS : UInt16) (d d' : ℕ) :
    bumpAttemptAgo (bumpAttemptAgo agoS d) d' = bumpAttemptAgo agoS (d + d') := by
  by_cases h : agoS = TrainState.attemptNever
  · simp only [bumpAttemptAgo,if_pos h,if_true]
  · have hbump : bumpAttemptAgo agoS d ≠ TrainState.attemptNever :=
      fun he => h (bumpAttemptAgo_eq_attemptNever_iff.mp he)
    rw [← UInt16.toNat_inj,bumpAttemptAgo_toNat hbump,bumpAttemptAgo_toNat h,
      bumpAttemptAgo_toNat h]
    omega

/-- The smaller of two bumps gives the same offset only under the sentinel or in
saturation. -/
theorem bumpAttemptAgo_eq_iff {agoS : UInt16} {d d' : ℕ} (hle : d ≤ d') :
    bumpAttemptAgo agoS d = bumpAttemptAgo agoS d' ↔
      agoS = TrainState.attemptNever ∨ d = d' ∨ 65534 ≤ agoS.toNat + d := by
  by_cases h : agoS = TrainState.attemptNever
  · exact iff_of_true (by simp only [bumpAttemptAgo,if_pos h]) (Or.inl h)
  · rw [← UInt16.toNat_inj,bumpAttemptAgo_toNat h,bumpAttemptAgo_toNat h]
    simp only [h,false_or]
    omega

section Chains

variable [TickRate]

/-! ### Growing a row -/

namespace TrainState

/-- A row moved to `now`, with both offsets grown by `deltaS`. -/
def advance (s : TrainState) (pixel : PixelCoord) (now deltaS : ℕ) : TrainState :=
  { s with
    lastTypeAttemptAgoS := bumpAttemptAgo s.lastTypeAttemptAgoS deltaS
    lastServiceAttemptAgoS := bumpAttemptAgo s.lastServiceAttemptAgoS deltaS
    pixel := pixel
    lastSeen := now }

theorem refresh_eq_advance {s : TrainState} {now : ℕ} (h : s.lastSeen ≤ now)
    (pixel : PixelCoord) :
    s.refresh pixel now = s.advance pixel now (Duration.asSecs (now - s.lastSeen)) := by
  rw [refresh,Instant.checkedDurationSince_of_le h]
  rfl

omit [TickRate] in
theorem advance_advance (s : TrainState) (p p' : PixelCoord) (t t' d d' : ℕ) :
    (s.advance p t d).advance p' t' d' = s.advance p' t' (d + d') := by
  simp only [advance,bumpAttemptAgo_add]

omit [TickRate] in
theorem advance_eq_iff {s : TrainState} {pixel : PixelCoord} {now d d' : ℕ} :
    s.advance pixel now d = s.advance pixel now d' ↔
      ∀ axis, bumpAttemptAgo (s.attemptAgoS axis) d = bumpAttemptAgo (s.attemptAgoS axis) d' := by
  simp only [advance,mk.injEq,true_and]
  constructor
  · rintro ⟨htype,hservice⟩ axis
    cases axis with
    | type => exact htype
    | service => exact hservice
  · intro h
    exact ⟨h .type,h .service⟩

end TrainState

/-! ### Chains of refreshes -/

/-- Refreshes of `n`, each with its instant and its pixel. -/
def refreshes (n : UInt32) (ps : List (ℕ × PixelCoord)) : List Event :=
  ps.map fun x => ⟨x.1,.upsert n x.2⟩

/-- The seconds that a chain of refreshes counts, each rounded down. -/
def countedS (start : ℕ) : List (ℕ × PixelCoord) → ℕ
  | [] => 0
  | (t,_) :: ps => Duration.asSecs (t - start) + countedS t ps

/-- The ticks that these roundings cut off. -/
def cutOff (start : ℕ) : List (ℕ × PixelCoord) → ℕ
  | [] => 0
  | (t,_) :: ps => (t - start) % TickRate.hz + cutOff t ps

/-- What is counted and what is cut off make up the whole time. -/
theorem fromSecs_countedS_add_cutOff {n : UInt32} {start t : ℕ} {p : PixelCoord}
    {init : List (ℕ × PixelCoord)} (hc : Chronological start (refreshes n (init ++ [(t,p)]))) :
    start ≤ t ∧ Duration.fromSecs (countedS start (init ++ [(t,p)])) +
      cutOff start (init ++ [(t,p)]) = t - start := by
  induction init generalizing start with
  | nil =>
    refine ⟨hc.1,?_⟩
    simp only [List.nil_append,countedS,cutOff,Nat.add_zero]
    exact Nat.div_add_mod' _ _
  | cons x init ih =>
    obtain ⟨u,q⟩ := x
    obtain ⟨hu,hrest⟩ := hc
    obtain ⟨hle,hsum⟩ := ih hrest
    have hstart : start ≤ u := hu
    have hut : u ≤ t := hle
    have hfirst : Duration.fromSecs (Duration.asSecs (u - start)) + (u - start) % TickRate.hz =
        u - start := Nat.div_add_mod' _ _
    refine ⟨hstart.trans hut,?_⟩
    simp only [List.cons_append,countedS,cutOff,Duration.fromSecs_add]
    dsimp only at hsum
    omega

/-- The single refresh counts one second more for every full second cut off. -/
theorem asSecs_eq {n : UInt32} {start t : ℕ} {p : PixelCoord} {init : List (ℕ × PixelCoord)}
    (hc : Chronological start (refreshes n (init ++ [(t,p)]))) :
    Duration.asSecs (t - start) = countedS start (init ++ [(t,p)]) +
      cutOff start (init ++ [(t,p)]) / TickRate.hz := by
  rw [← (fromSecs_countedS_add_cutOff hc).2,Duration.asSecs,Duration.fromSecs,Nat.add_comm,
    Nat.add_mul_div_right _ _ TickRate.hz_pos,Nat.add_comm]

/-- A chain of refreshes advances the row by the seconds that it counts. -/
theorem foldl_refreshes {n : UInt32} {s : TrainState} {t : ℕ} {p : PixelCoord}
    {init : List (ℕ × PixelCoord)} (hc : Chronological s.lastSeen (refreshes n (init ++ [(t,p)]))) :
    (refreshes n (init ++ [(t,p)])).foldl (TrainState.after n) s =
      s.advance p t (countedS s.lastSeen (init ++ [(t,p)])) := by
  induction init generalizing s with
  | nil =>
    have hone : s.after n ⟨t,.upsert n p⟩ = s.refresh p t := if_pos rfl
    exact hone.trans (TrainState.refresh_eq_advance hc.1 p)
  | cons x init ih =>
    obtain ⟨u,q⟩ := x
    obtain ⟨hu,hrest⟩ := hc
    have hfirst : s.after n ⟨u,.upsert n q⟩ =
        s.advance q u (Duration.asSecs (u - s.lastSeen)) :=
      (if_pos rfl).trans (TrainState.refresh_eq_advance hu q)
    have hfold := ih (s := s.advance q u (Duration.asSecs (u - s.lastSeen))) hrest
    rw [TrainState.advance_advance] at hfold
    rw [List.cons_append,refreshes,List.map_cons,List.foldl_cons,hfirst]
    exact hfold

/-- Refreshes of a registered train keep it registered. -/
theorem get_run_refreshes {r : Registry} {n : UInt32} {s : TrainState} (hs : r.get n = some s)
    (ps : List (ℕ × PixelCoord)) :
    (r.run (refreshes n ps)).get n = some ((refreshes n ps).foldl (TrainState.after n) s) := by
  induction ps generalizing r s with
  | nil => exact hs
  | cons x ps ih =>
    refine ih ?_
    rw [apply,get_upsert_of_some hs,if_pos rfl]
    exact congrArg some (if_pos rfl).symm

/-- A chain of refreshes leaves the row as its last refresh alone would, exactly when on
each axis there was no attempt, less than a second was cut off, or the offset is
saturated. -/
theorem refreshes_anchored_iff (r : Registry) (n : UInt32) (s : TrainState)
    (init : List (ℕ × PixelCoord)) (t : ℕ) (p : PixelCoord) (hs : r.get n = some s)
    (hc : Chronological s.lastSeen (refreshes n (init ++ [(t,p)]))) :
    (r.run (refreshes n (init ++ [(t,p)]))).get n = (r.upsert n p t).1.get n ↔
      ∀ axis, s.attemptAgoS axis = TrainState.attemptNever ∨
        cutOff s.lastSeen (init ++ [(t,p)]) < TickRate.hz ∨
        65534 ≤ (s.attemptAgoS axis).toNat + countedS s.lastSeen (init ++ [(t,p)]) := by
  have hle := (fromSecs_countedS_add_cutOff hc).1
  have hsecs := asSecs_eq hc
  rw [get_run_refreshes hs,foldl_refreshes hc,get_upsert_of_some hs,if_pos rfl,
    TrainState.refresh_eq_advance hle,Option.some.injEq,TrainState.advance_eq_iff]
  refine forall_congr' fun axis => ?_
  rw [bumpAttemptAgo_eq_iff (hsecs ▸ Nat.le_add_right _ _)]
  -- nothing is lost when the cut-off ticks do not fill a second
  have hlost : countedS s.lastSeen (init ++ [(t,p)]) = Duration.asSecs (t - s.lastSeen) ↔
      cutOff s.lastSeen (init ++ [(t,p)]) < TickRate.hz := by
    rw [hsecs,← Nat.div_eq_zero_iff_lt TickRate.hz_pos]
    omega
  rw [hlost]

end Chains

/-- Train 7, seen and stamped at boot. -/
def stampedAtBoot [TickRate] : Registry :=
  Registry.new.run [⟨0,.upsert 7 ⟨3,4⟩⟩,⟨0,.setType 7 .unknown⟩]

/-- What the registry has on train 7. -/
def bootRow : TrainState :=
  { TrainState.new ⟨3,4⟩ 0 with lastTypeAttemptAgoS := 0 }

/-- Refreshes after whole seconds. -/
theorem refreshes_anchored_wholeSeconds : letI := microTicks
    (stampedAtBoot.run (refreshes 7 ([(1000000,⟨3,4⟩)] ++ [(3000000,⟨3,5⟩)]))).get 7 =
        (stampedAtBoot.upsert 7 ⟨3,5⟩ 3000000).1.get 7 ↔
      ∀ axis, bootRow.attemptAgoS axis = TrainState.attemptNever ∨
        cutOff bootRow.lastSeen ([(1000000,⟨3,4⟩)] ++ [(3000000,⟨3,5⟩)]) < TickRate.hz ∨
        65534 ≤ (bootRow.attemptAgoS axis).toNat +
          countedS bootRow.lastSeen ([(1000000,⟨3,4⟩)] ++ [(3000000,⟨3,5⟩)]) := by
  let _ := microTicks
  exact refreshes_anchored_iff stampedAtBoot 7 bootRow [(1000000,⟨3,4⟩)] 3000000 ⟨3,5⟩ (by decide)
    (by simp [Chronological,refreshes,bootRow,TrainState.new])

/-- Two refreshes 0.6 s apart lose the second that the last one alone counts. -/
theorem not_refreshes_anchored_halfSeconds : letI := microTicks
    stampedAtBoot.get 7 = some bootRow ∧
      Chronological bootRow.lastSeen (refreshes 7 [(600000,⟨3,4⟩),(1200000,⟨3,5⟩)]) ∧
      (stampedAtBoot.run (refreshes 7 [(600000,⟨3,4⟩),(1200000,⟨3,5⟩)])).get 7 ≠
        (stampedAtBoot.upsert 7 ⟨3,5⟩ 1200000).1.get 7 := by
  let _ := microTicks
  refine ⟨by decide,by simp [Chronological,refreshes,bootRow,TrainState.new],by decide⟩

end NsPixels
