import NsPixels.NsApi
import NsPixels.Registry.Sweep

/-!
# Which attempts a call stamps

Both calls touch the registry only by stamping attempts at the instant of the answer.
A type response stamps the trains it has a record for, whichever trains were
requested, and an answer that cannot be read stamps none: whether the next sweep asks
again is then decided by the rows that the call found.
-/

namespace NsPixels

open FixedCap Registry

section Stamping

variable [TickRate]

/-- The row of `n`, if there is one, carries the offset that an attempt on `axis`
stamped at `now` would write. -/
def Registry.Stamped (axis : UnknownAxis) (n : UInt32) (now : ℕ) (r : Registry) : Prop :=
  ∀ s, r.get n = some s → s.attemptAgoS axis = attemptOffsetS s.lastSeen now

/-- One stamp reaches the train it names and leaves every other one as it was. -/
theorem stamped_apply_iff {axis : UnknownAxis} {m n : UInt32} {e : Event}
    (h : e.op.stamps axis = some m) (r : Registry) :
    (r.apply e).Stamped axis n e.now ↔ m = n ∨ r.Stamped axis n e.now := by
  have hget : ∃ f : TrainState → TrainState,
      (r.apply e).get n = if n = m then (r.get n).map f else r.get n := by
    obtain ⟨now,op⟩ := e
    cases op <;> cases axis <;> cases h
    · exact ⟨_,r.get_setType _ n _ now⟩
    · exact ⟨_,r.get_setService _ n _ now⟩
  by_cases hmn : m = n
  · subst hmn
    refine iff_of_true ?_ (Or.inl rfl)
    intro s hs
    cases hr : r.get m with
    | none =>
      obtain ⟨f,hf⟩ := hget
      rw [hs,hr] at hf
      simp at hf
    | some s₀ =>
      obtain ⟨hago,hseen⟩ := TrainState.after_of_stamps h s₀
      rw [get_apply_of_some hr hs,hago,hseen]
  · obtain ⟨f,hf⟩ := hget
    rw [if_neg (Ne.symm hmn)] at hf
    simp only [Registry.Stamped,hf,hmn,false_or]

/-- A run of stamps at one instant. -/
theorem stamped_run_iff {axis : UnknownAxis} {n : UInt32} {now : ℕ} {es : List Event}
    (h : ∀ e ∈ es, e.now = now ∧ (e.op.stamps axis).isSome) (r : Registry) :
    (r.run es).Stamped axis n now ↔
      (∃ e ∈ es, e.op.stamps axis = some n) ∨ r.Stamped axis n now := by
  induction es generalizing r with
  | nil => simp
  | cons e es ih =>
    obtain ⟨rfl,hsome⟩ := h e List.mem_cons_self
    obtain ⟨m,hm⟩ := Option.isSome_iff_exists.mp hsome
    rw [run_cons,ih (fun e' he' => h e' (List.mem_cons_of_mem e he')),stamped_apply_iff hm]
    simp only [List.mem_cons,exists_eq_or_imp,hm,Option.some.injEq]
    rw [← or_assoc,or_comm (a := ∃ _, _),or_assoc]

end Stamping

namespace NsApi

section Calls

variable [TickRate] {ε : Type} (json : Json) (send : Request → Except ε (Response ε))
  (headers : List (String × String))

/-- The registry operations a call performs when its answer arrives at `now`. -/
def Call.events (call : Call) (now : ℕ) : List Event :=
  match send (call.request headers) with
  | .error _ => []
  | .ok resp =>
    match call with
    | .types batch =>
      if ¬ isSuccessful resp.status then batch.map fun n => ⟨now,.setType n .unknown⟩
      else
        match parseBody resp.body (readTypes json) with
        | .error _ => []
        | .ok parsed =>
          parsed.toList.map fun info => ⟨now,.setType info.number (mapTrainType info.trainType)⟩
    | .service number =>
      if ¬ isSuccessful resp.status then [⟨now,.setService number .unknown⟩]
      else
        match parseBody resp.body (readJourney json) with
        | .error _ => []
        | .ok parsed => [⟨now,.setService number parsed.service⟩]

/-- Applying the records in the order of the response. -/
theorem foldl_records_fst (infos : List TrainInfo) (now : ℕ) (reg : Registry) (applied : ℕ) :
    (infos.foldl
      (fun (acc : Registry × ℕ) info =>
        let typ := mapTrainType info.trainType
        (acc.1.setType info.number typ now,if typ ≠ .unknown then acc.2 + 1 else acc.2))
      (reg,applied)).1 =
      reg.run (infos.map fun info => ⟨now,.setType info.number (mapTrainType info.trainType)⟩) := by
  induction infos generalizing reg applied with
  | nil => rfl
  | cons info infos ih =>
    rw [List.foldl_cons,List.map_cons,run_cons]
    exact ih _ _

theorem foldl_setType_unknown (batch : List UInt32) (now : ℕ) (reg : Registry) :
    batch.foldl (fun reg n => reg.setType n .unknown now) reg =
      reg.run (batch.map fun n => ⟨now,.setType n .unknown⟩) := by
  rw [Registry.run,List.foldl_map]
  rfl

/-- A call changes the registry by its events and in no other way. -/
theorem Call.perform_fst (call : Call) (now : ℕ) (reg : Registry) :
    (call.perform json send headers now reg).1 =
      reg.run (call.events json send headers now) := by
  cases call with
  | types batch =>
    simp only [Call.perform,Call.events,fetchTypesOn]
    cases send ((Call.types batch).request headers) with
    | error e => rfl
    | ok resp =>
      dsimp only
      split
      · exact foldl_setType_unknown batch now reg
      · cases parseBody resp.body (readTypes json) with
        | error e => rfl
        | ok parsed => exact foldl_records_fst parsed.toList now reg 0
  | service number =>
    simp only [Call.perform,Call.events,fetchServiceOn]
    cases send ((Call.service number).request headers) with
    | error e => rfl
    | ok resp =>
      dsimp only
      split
      · rfl
      · cases parseBody resp.body (readJourney json) with
        | error e => rfl
        | ok parsed => rfl

omit [TickRate] in
theorem Call.events_now {call : Call} {now : ℕ} :
    ∀ e ∈ call.events json send headers now, e.now = now := by
  intro e he
  rw [Call.events] at he
  split at he
  · cases he
  · split at he <;> split at he
    · obtain ⟨n,_,rfl⟩ := List.mem_map.mp he
      rfl
    · split at he
      · cases he
      · obtain ⟨info,_,rfl⟩ := List.mem_map.mp he
        rfl
    · rw [List.mem_singleton.mp he]
    · split at he
      · cases he
      · rw [List.mem_singleton.mp he]

omit [TickRate] in
theorem exists_error_of_isOk_eq_false {α β : Type} {x : Except α β} (h : x.isOk = false) :
    ∃ e, x = .error e := by
  cases x with
  | error e => exact ⟨e,rfl⟩
  | ok b => cases h

/-- A 2xx answer whose body is read to its end. -/
def Answered (req : Request) (body : List UInt8) : Prop :=
  ∃ status, isSuccessful status = true ∧ send req = .ok ⟨status,.ok body⟩

/-- Whether a call can read `body`: valid UTF-8, JSON, and within the capacities of
the parsed structures. -/
def Call.reads (body : List UInt8) : Call → Bool
  | types _ => (parseBody (.ok body : Except ε (List UInt8)) (readTypes json)).isOk
  | service _ => (parseBody (.ok body : Except ε (List UInt8)) (readJourney json)).isOk

variable {json send headers}

/-- A type response that can be read succeeds and applies its records. -/
theorem fetchTypesOn_of_answered {batch : List UInt32} {now : ℕ} {reg : Registry}
    {body : List UInt8} {parsed : Vec TrainInfo (batchMax * 5)}
    (hsend : Answered send ((Call.types batch).request headers) body)
    (hparse : parseBody (.ok body : Except ε (List UInt8)) (readTypes json) = .ok parsed) :
    (fetchTypesOn json send headers batch now reg).2.isOk = true ∧
      (fetchTypesOn json send headers batch now reg).1 = reg.run (parsed.toList.map fun info =>
        ⟨now,.setType info.number (mapTrainType info.trainType)⟩) := by
  obtain ⟨status,hstatus,hresp⟩ := hsend
  simp only [fetchTypesOn,hresp,hstatus,hparse,not_true,if_false]
  exact ⟨rfl,foldl_records_fst parsed.toList now reg 0⟩

/-- A type response stamps the trains it has a record for and no other. -/
theorem stamped_fetchTypesOn_iff {batch : List UInt32} {now : ℕ} {reg : Registry}
    {body : List UInt8} {parsed : Vec TrainInfo (batchMax * 5)}
    (hsend : Answered send ((Call.types batch).request headers) body)
    (hparse : parseBody (.ok body : Except ε (List UInt8)) (readTypes json) = .ok parsed) :
    (fetchTypesOn json send headers batch now reg).2.isOk = true ∧
      ((∀ n ∈ batch, (fetchTypesOn json send headers batch now reg).1.Stamped .type n now) ↔
        ∀ n ∈ batch, n ∈ parsed.toList.map (·.number) ∨ reg.Stamped .type n now) := by
  obtain ⟨hok,hrun⟩ := fetchTypesOn_of_answered hsend hparse
  refine ⟨hok,forall₂_congr fun n _ => ?_⟩
  rw [hrun,stamped_run_iff]
  · simp [Op.stamps]
  · simp [Op.stamps]

/-- An answer that cannot be read leaves the registry as it was: the error is returned
before the lock is taken. -/
theorem Call.perform_of_unreadable {call : Call} {now : ℕ} {reg : Registry} {body : List UInt8}
    (hsend : Answered send (call.request headers) body)
    (hbody : @Call.reads ε json body call = false) :
    call.perform json send headers now reg = (reg,false) := by
  obtain ⟨status,hstatus,hresp⟩ := hsend
  obtain ⟨e,he⟩ : ∃ e, match call with
      | types _ => parseBody (.ok body : Except ε (List UInt8)) (readTypes json) = .error e
      | service _ => parseBody (.ok body : Except ε (List UInt8)) (readJourney json) = .error e := by
    cases call <;> exact exists_error_of_isOk_eq_false hbody
  cases call with
  | types batch => simp [Call.perform,fetchTypesOn,hresp,hstatus,he,Except.isOk,Except.toBool]
  | service number => simp [Call.perform,fetchServiceOn,hresp,hstatus,he,Except.isOk,Except.toBool]

/-- Room of the buffer that the sweep fills for an axis. -/
def bufferCap : UnknownAxis → ℕ
  | .type => typeBufferCap
  | .service => serviceBufferCap

/-- The sweep at `sweep`, which starts with empty buffers, asks for `n` on `axis`. -/
def Retried (r : Registry) (axis : UnknownAxis) (sweep : ℕ) (n : UInt32) : Prop :=
  ∃ typeBatch serviceBatch, r.pendingEnrichment (Vec.empty : Vec UInt32 typeBufferCap)
      (Vec.empty : Vec UInt32 serviceBufferCap) (Duration.fromSecs retryCooldownS) sweep =
        some (typeBatch,serviceBatch) ∧
    match axis with
    | .type => n ∈ typeBatch.toList
    | .service => n ∈ serviceBatch.toList

theorem retried_iff {r : Registry} {sweep : ℕ} (hseen : r.SeenBy sweep) (axis : UnknownAxis)
    (n : UInt32) : Retried r axis sweep n ↔
      n ∈ (r.due axis sweep (Duration.fromSecs retryCooldownS)).take (bufferCap axis) := by
  obtain ⟨typeBatch,serviceBatch,hrun,htypes,hservices,-⟩ := pendingEnrichment_scans hseen
    (Duration.fromSecs retryCooldownS) (Vec.empty : Vec UInt32 typeBufferCap)
    (Vec.empty : Vec UInt32 serviceBufferCap)
  have htypes : typeBatch.toList = _ := htypes.scan
  have hservices : serviceBatch.toList = _ := hservices.scan
  simp only [Vec.toList_empty,List.nil_append] at htypes hservices
  constructor
  · rintro ⟨_,_,hrun',hmem⟩
    rw [hrun,Option.some.injEq,Prod.mk.injEq] at hrun'
    obtain ⟨rfl,rfl⟩ := hrun'
    cases axis with
    | type => exact htypes ▸ hmem
    | service => exact hservices ▸ hmem
  · intro hmem
    refine ⟨typeBatch,serviceBatch,hrun,?_⟩
    cases axis with
    | type => exact htypes.symm ▸ hmem
    | service => exact hservices.symm ▸ hmem

/-- What keeps the sweep from asking for a train with row `v`: it is known on the axis, its
last attempt is less than the cooldown ago as far as the row tells, or the buffer is full
of trains that stand before it. -/
def PassedOver (r : Registry) (axis : UnknownAxis) (sweep : ℕ) (n : UInt32) (v : TrainState) : Prop :=
  v.isUnknown axis = false ∨
    v.attemptAgoS axis ≠ TrainState.attemptNever ∧
      Duration.asSecs (sweep - v.lastSeen) + (v.attemptAgoS axis).toNat < retryCooldownS ∨
    bufferCap axis ≤ (r.dueBefore axis sweep (Duration.fromSecs retryCooldownS) n).length

theorem not_retried_iff {r : Registry} {sweep : ℕ} (hseen : r.SeenBy sweep) (axis : UnknownAxis)
    (n : UInt32) : ¬ Retried r axis sweep n ↔ ∀ v, r.get n = some v → PassedOver r axis sweep n v := by
  rw [retried_iff hseen]
  have hdue : ∀ v, ¬ Due axis sweep (Duration.fromSecs retryCooldownS) v ↔
      v.isUnknown axis = false ∨ v.attemptAgoS axis ≠ TrainState.attemptNever ∧
        Duration.asSecs (sweep - v.lastSeen) + (v.attemptAgoS axis).toNat < retryCooldownS := by
    intro v
    rw [Due,Duration.asSecs_fromSecs,not_and_or,not_or,not_le,Bool.not_eq_true]
  constructor
  · intro hnot v hv
    rw [PassedOver,← or_assoc,← hdue,or_iff_not_imp_left,not_not]
    intro hv'
    rw [mem_take_due_iff hv hv'] at hnot
    exact not_lt.mp hnot
  · intro hpass hmem
    obtain ⟨v,hv,hv'⟩ := mem_due_iff.mp (List.mem_of_mem_take hmem)
    rw [mem_take_due_iff hv hv'] at hmem
    have hpass := hpass v hv
    rw [PassedOver,← or_assoc,← hdue] at hpass
    exact hpass.elim (fun hnot => hnot hv') (Nat.not_le_of_lt hmem)

theorem attemptOffsetS_toNat (lastSeen now : ℕ) :
    (attemptOffsetS lastSeen now).toNat = min (Duration.asSecs (lastSeen - now)) 65534 := by
  rcases le_total now lastSeen with h | h
  · rw [attemptOffsetS,Instant.checkedDurationSince_of_le h]
    exact toNat_ofNat_min _
  · rw [attemptOffsetS_of_le h,Nat.sub_eq_zero_of_le h,Duration.asSecs_zero]
    rfl

/-- After an answer that cannot be read, every requested train is stamped and the sweep at
`sweep`, up to which the registry has gone through `es`, does not ask for it, exactly when the
rows say so by themselves: as if the train had last been attempted when the answer came, and
as if it needed no attempt at the sweep. -/
theorem cooled_of_unreadable_iff {call : Call} {now sweep : ℕ} {reg : Registry} {body : List UInt8}
    {es : List Event} (hsend : Answered send (call.request headers) body)
    (hbody : @Call.reads ε json body call = false) (hseen : (reg.run es).SeenBy sweep) :
    (call.perform json send headers now reg).2 = false ∧
      ((∀ n ∈ call.requested, (reg.get n).isSome →
        (call.perform json send headers now reg).1.Stamped call.axis n now ∧
          ¬ Retried ((call.perform json send headers now reg).1.run es) call.axis sweep n) ↔
        ∀ n ∈ call.requested, ∀ s, reg.get n = some s →
          (s.attemptAgoS call.axis).toNat = min (Duration.asSecs (s.lastSeen - now)) 65534 ∧
            ∀ v, (reg.run es).get n = some v → PassedOver (reg.run es) call.axis sweep n v) := by
  rw [Call.perform_of_unreadable hsend hbody]
  refine ⟨rfl,forall₂_congr fun n _ => ?_⟩
  rw [not_retried_iff hseen,Option.isSome_iff_exists,forall_exists_index]
  refine forall₂_congr fun s hs => and_congr_left fun _ => ?_
  rw [← attemptOffsetS_toNat,UInt16.toNat_inj,Registry.Stamped,hs]
  exact ⟨fun h => h s rfl,fun h _ he => Option.some.inj he ▸ h⟩

end Calls

/-- A response with one record, and a reader that knows it. -/
def sampleDocument : String := "[\x7b\"ritnummer\":7,\"type\":\"SNG\"\x7d]"

def sampleJson : Json where
  trainInfos := fun s => if s = sampleDocument then some [⟨7,some "SNG"⟩] else none
  journey := fun _ => none

/-- Trains 7 and 9, both seen at boot. -/
def twoTrains [TickRate] : Registry :=
  Registry.new.run [⟨0,.upsert 7 ⟨3,4⟩⟩,⟨0,.upsert 9 ⟨5,6⟩⟩]

/-- Records of two of three trains, and a fourth one that nobody asked for. -/
def threeRecords : Json where
  trainInfos := fun _ => some [⟨9,none⟩,⟨12,some "VIRM"⟩,⟨7,some "SNG"⟩]
  journey := fun _ => none

/-- Train 11 has no record, but it was attempted since it was last seen. -/
theorem stamped_fetchTypesOn_three : letI := microTicks
    let reg := twoTrains.run [⟨0,.upsert 11 ⟨1,1⟩⟩,⟨3,.setType 11 .unknown⟩]
    let send : Request → Except Unit (Response Unit) := fun _ => .ok ⟨200,.ok []⟩
    (fetchTypesOn threeRecords send [] [7,9,11] 5 reg).2.isOk = true ∧
      ∀ n ∈ [7,9,11], (fetchTypesOn threeRecords send [] [7,9,11] 5 reg).1.Stamped .type n 5 := by
  let _ := microTicks
  intro reg send
  have hparse : parseBody (.ok [] : Except Unit (List UInt8)) (readTypes threeRecords) =
      .ok ⟨[⟨9,none⟩,⟨12,some "VIRM"⟩,⟨7,some "SNG"⟩],by decide⟩ := by decide +kernel
  have hsend : Answered send ((Call.types [7,9,11]).request []) [] := ⟨200,by decide,rfl⟩
  refine ⟨(stamped_fetchTypesOn_iff hsend hparse).1,
    (stamped_fetchTypesOn_iff hsend hparse).2.mpr fun n hn => ?_⟩
  simp only [List.mem_cons,List.not_mem_nil,or_false] at hn
  obtain rfl | rfl | rfl := hn
  · exact Or.inl (by decide)
  · exact Or.inl (by decide)
  · refine Or.inr fun s hs => ?_
    have hrow : (reg.get 11).map (fun s => (s.attemptAgoS .type,s.lastSeen)) = some (0,0) := by
      decide +kernel
    rw [hs,Option.map_some,Option.some.injEq,Prod.mk.injEq] at hrow
    rw [hrow.1,hrow.2]
    exact (attemptOffsetS_of_le (by decide)).symm

/-- The answer with one record to a request for trains 7 and 9: train 9 keeps its sentinel. -/
theorem not_stamped_without_record : letI := microTicks
    let send : Request → Except Unit (Response Unit) := fun _ =>
      .ok ⟨200,.ok (utf8 sampleDocument.toList)⟩
    (fetchTypesOn sampleJson send [] [7,9] 5 twoTrains).2.isOk = true ∧
      ¬ ∀ n ∈ [7,9], (fetchTypesOn sampleJson send [] [7,9] 5 twoTrains).1.Stamped .type n 5 := by
  let _ := microTicks
  refine ⟨by decide +kernel,fun h => ?_⟩
  have hs := h 9 (by decide) (TrainState.new ⟨5,6⟩ 0) (by decide +kernel)
  exact absurd hs (by decide)

/-- A body that is not UTF-8, in answer to either call. -/
def garbled : Request → Except Unit (Response Unit) := fun _ => .ok ⟨200,.ok [0xFF]⟩

/-- Trains 7 and 9, which have both been asked for. -/
def attemptedTrains [TickRate] : Registry :=
  twoTrains.run [⟨0,.setType 7 .unknown⟩,⟨0,.setType 9 .unknown⟩]

/-- After a garbled answer at 60 s, and another sight of train 7, the sweep at 73 s passes the
two trains over; after one at 119 s the sweep at 132 s asks for them. -/
theorem cooled_of_unreadable_attempted : letI := microTicks
    let call := Call.types [7,9]
    let early := (call.perform sampleJson garbled [] (Duration.fromSecs 60) attemptedTrains).1
    let late := (call.perform sampleJson garbled [] (Duration.fromSecs 119) attemptedTrains).1
    (∀ n ∈ call.requested, (attemptedTrains.get n).isSome →
      early.Stamped call.axis n (Duration.fromSecs 60) ∧
        ¬ Retried (early.run [⟨Duration.fromSecs 70,.upsert 7 ⟨3,5⟩⟩]) call.axis
          (Duration.fromSecs 73) n) ∧
    ¬ ∀ n ∈ call.requested, (attemptedTrains.get n).isSome →
      late.Stamped call.axis n (Duration.fromSecs 119) ∧
        ¬ Retried (late.run []) call.axis (Duration.fromSecs 132) n := by
  let _ := microTicks
  have hbody : @Call.reads Unit sampleJson [0xFF] (.types [7,9]) = false := by decide +kernel
  have hsend : Answered garbled ((Call.types [7,9]).request []) [0xFF] := ⟨200,by decide,rfl⟩
  have hrows : ∀ e ∈ attemptedTrains.map.entries, e.2.lastSeen = 0 ∧ e.2.typ = .unknown ∧
      e.2.lastTypeAttemptAgoS = 0 := by decide +kernel
  have hrow : ∀ {n s}, attemptedTrains.get n = some s → s.lastSeen = 0 ∧ s.typ = .unknown ∧
      s.lastTypeAttemptAgoS = 0 := fun hs => hrows _ (get_eq_some_iff.mp hs)
  constructor
  · have hlater : ∀ e ∈ (attemptedTrains.run [⟨Duration.fromSecs 70,.upsert 7 ⟨3,5⟩⟩]).map.entries,
        e.2.lastSeen ≤ Duration.fromSecs 73 ∧ e.2.attemptAgoS .type ≠ TrainState.attemptNever ∧
          Duration.asSecs (Duration.fromSecs 73 - e.2.lastSeen) + (e.2.attemptAgoS .type).toNat <
            retryCooldownS := by
      decide +kernel
    have hseen : (attemptedTrains.run [⟨Duration.fromSecs 70,.upsert 7 ⟨3,5⟩⟩]).SeenBy
        (Duration.fromSecs 73) := fun n v hv => (hlater _ (get_eq_some_iff.mp hv)).1
    refine (cooled_of_unreadable_iff hsend hbody hseen).2.mpr fun n _ s hs => ⟨?_,fun v hv => ?_⟩
    · obtain ⟨hlast,-,hago⟩ := hrow hs
      simp [Call.axis,TrainState.attemptAgoS,hlast,hago]
    · exact Or.inr (Or.inl (hlater _ (get_eq_some_iff.mp hv)).2)
  · intro h
    have hseen : (attemptedTrains.run []).SeenBy (Duration.fromSecs 132) := fun n s hs =>
      (hrow hs).1.symm ▸ Nat.zero_le _
    have hcooled := (cooled_of_unreadable_iff hsend hbody hseen).2.mp h
    have hsome : (attemptedTrains.get 7).isSome = true := by decide +kernel
    obtain ⟨s,hs⟩ := Option.isSome_iff_exists.mp hsome
    obtain ⟨hlast,htyp,hago⟩ := hrow hs
    obtain hknown | ⟨-,hlt⟩ | hfull := (hcooled 7 (by decide) s hs).2 s hs
    · simp [Call.axis,TrainState.isUnknown,htyp] at hknown
    · simp only [Call.axis,TrainState.attemptAgoS,hago,hlast] at hlt
      exact absurd hlt (by decide)
    · exact absurd hfull (by decide +kernel)

/-- `call`, answered at 5 s by a garbled body, leaves train 7 without its stamp, and the
sweep after the backoff asks for it again. -/
def Unstamped [TickRate] (call : Call) : Prop :=
  let reg := (call.perform sampleJson garbled [] (Duration.fromSecs 5) twoTrains).1
  ¬ reg.Stamped call.axis 7 (Duration.fromSecs 5) ∧
    (reg.pendingEnrichment (Vec.empty : Vec UInt32 typeBufferCap)
      (Vec.empty : Vec UInt32 serviceBufferCap) (Duration.fromSecs retryCooldownS)
      (Duration.fromSecs 18)).map (fun bufs => (bufs.1.toList,bufs.2.toList)) =
        some ([7,9],[7,9])

theorem unstamped_of_unreadable : letI := microTicks
    Unstamped (.types [7]) ∧ Unstamped (.service 7) := by
  let _ := microTicks
  refine ⟨⟨fun h => ?_,by decide +kernel⟩,fun h => ?_,by decide +kernel⟩
  · have hs := h (TrainState.new ⟨3,4⟩ 0) (by decide +kernel)
    exact absurd hs (by decide)
  · have hs := h (TrainState.new ⟨3,4⟩ 0) (by decide +kernel)
    exact absurd hs (by decide)

end NsApi

end NsPixels
