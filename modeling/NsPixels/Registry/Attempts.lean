import NsPixels.Registry.Trace

/-!
# Which rows have been attempted

The sentinel in an attempt offset tells, at the end of every run, whether a stamp
has reached the row since it was inserted.
-/

namespace NsPixels

open Registry

variable [TickRate]

theorem Registry.stays_append {n : UInt32} {r : Registry} {es es' : List Event} :
    Stays n r (es ++ es') ↔ Stays n r es ∧ Stays n (r.run es) es' := by
  induction es generalizing r with
  | nil => exact ⟨fun h => ⟨h.isSome,h⟩,fun h => h.2⟩
  | cons e es ih => rw [List.cons_append,Stays,Stays,ih,run_cons,and_assoc]

/-- During the run a stamp of `n` on `axis` reached the row that `n` has at its end. -/
def Attempted (axis : UnknownAxis) (n : UInt32) (es : List Event) : Prop :=
  ∃ pre e post, es = pre ++ e :: post ∧ e.op.stamps axis = some n ∧
    Stays n (Registry.new.run pre) (e :: post)

theorem attempted_concat_iff {axis : UnknownAxis} {n : UInt32} {es : List Event} {e : Event} :
    Attempted axis n (es ++ [e]) ↔
      Stays n (Registry.new.run es) [e] ∧ (e.op.stamps axis = some n ∨ Attempted axis n es) := by
  constructor
  · rintro ⟨pre,e',post,hes,hstamp,hstays⟩
    obtain rfl | ⟨post',e'',rfl⟩ := List.eq_nil_or_concat post
    · obtain ⟨rfl,he⟩ := List.append_inj' hes rfl
      obtain rfl : e = e' := by simpa using he
      exact ⟨hstays,Or.inl hstamp⟩
    · rw [List.concat_eq_append,← List.cons_append,← List.append_assoc] at hes
      obtain ⟨rfl,he⟩ := List.append_inj' hes rfl
      obtain rfl : e = e'' := by simpa using he
      rw [List.concat_eq_append,← List.cons_append,stays_append] at hstays
      rw [run_append]
      exact ⟨hstays.2,Or.inr ⟨pre,e',post',rfl,hstamp,hstays.1⟩⟩
  · rintro ⟨hstays,hstamp | ⟨pre,e',post,rfl,hstamp,hpost⟩⟩
    · exact ⟨es,e,[],rfl,hstamp,hstays⟩
    · refine ⟨pre,e',post ++ [e],by simp,hstamp,?_⟩
      rw [← List.cons_append,stays_append,← run_append]
      exact ⟨hpost,hstays⟩

/-- An offset is the sentinel exactly while no stamp has reached the row. -/
theorem attemptAgoS_eq_attemptNever_iff {axis : UnknownAxis} {n : UInt32} {es : List Event}
    {row : TrainState} (h : (Registry.new.run es).get n = some row) :
    row.attemptAgoS axis = TrainState.attemptNever ↔ ¬ Attempted axis n es := by
  induction es using List.reverseRecOn generalizing row with
  | nil => cases h
  | append_singleton es e ih =>
    rw [run_append,run_cons,run_nil] at h
    rcases (Registry.new.run es).get_apply_cases e n with
      ⟨s,hs,hr⟩ | ⟨_,_,hr⟩ | ⟨_,_,hs,hr⟩ | ⟨_,hr⟩
    · obtain rfl : row = s.after n e := by rw [h,Option.some.injEq] at hr; exact hr
      have hstays : Stays n (Registry.new.run es) [e] :=
        ⟨by rw [hs]; rfl,by rw [Stays,h]; rfl⟩
      rw [attempted_concat_iff]
      by_cases hstamp : e.op.stamps axis = some n
      · -- a stamp never writes the sentinel
        refine iff_of_false ?_ (fun hno => hno ⟨hstays,Or.inl hstamp⟩)
        rw [(TrainState.after_of_stamps hstamp s).1]
        exact attemptOffsetS_ne_attemptNever _ _
      · have hkept : (s.after n e).attemptAgoS axis = TrainState.attemptNever ↔
            s.attemptAgoS axis = TrainState.attemptNever := by
          obtain ⟨pixel,he⟩ | ⟨hago,_,_⟩ := TrainState.after_of_quiet hstamp s
          · rw [he,TrainState.refresh_attemptAgoS,bumpAttemptAgo_eq_attemptNever_iff]
          · rw [hago]
        rw [hkept,ih hs]
        simp [hstays,hstamp]
    · rw [h] at hr
      cases hr
    · -- the row has just been inserted
      rw [h,Option.some.injEq] at hr
      apply iff_of_true (hr ▸ TrainState.new_attemptAgoS _ _ _)
      rw [attempted_concat_iff]
      rintro ⟨hstays,_⟩
      rw [Stays,hs] at hstays
      exact absurd hstays.1 (by simp)
    · rw [h] at hr
      cases hr

/-- A row of unknown type or service that no stamp has reached is wanted by every
sweep, whatever the cooldown. -/
theorem wants_of_not_attempted {axis : UnknownAxis} {n : UInt32} {es : List Event}
    {row : TrainState} (h : (Registry.new.run es).get n = some row)
    (hunknown : row.isUnknown axis = true) (hnot : ¬ Attempted axis n es)
    (sinceSeenS cooldownS : ℕ) : wants row axis sinceSeenS cooldownS = true := by
  rw [wants,hunknown,(attemptAgoS_eq_attemptNever_iff h).mpr hnot,ready_attemptNever,Bool.true_and]

end NsPixels
