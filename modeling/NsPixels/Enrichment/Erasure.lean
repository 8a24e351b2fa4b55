import NsPixels.Enrichment
import NsPixels.Registry.Cooldown

/-!
# What a failed request erases

A call that fails with a status stamps every requested train as unresolved, also one
that has been resolved since it was queued. The other failures touch no row.
-/

namespace NsPixels

open FixedCap Registry

/-- A row without its attempt offsets. -/
def TrainState.data (s : TrainState) : PixelCoord × ℕ × TrainType × ServiceType :=
  (s.pixel,s.lastSeen,s.typ,s.service)

/-- From `r` to `r'` at most attempt offsets change. -/
def Registry.OnlyOffsets (r r' : Registry) : Prop :=
  ∀ n, (r'.get n).map TrainState.data = (r.get n).map TrainState.data

section Erasure

variable [TickRate]

/-- A stamp as unresolved keeps the data of a row exactly when there was nothing to erase. -/
theorem TrainState.data_after_unresolved_iff {axis : UnknownAxis} {n : UInt32} {s : TrainState}
    {now : ℕ} :
    (s.after n ⟨now,unresolved axis n⟩).data = s.data ↔ s.isUnknown axis = true := by
  cases axis with
  | type =>
    simp only [unresolved,after_setType,if_true,stampType,data,isUnknown,Prod.mk.injEq,true_and,
      and_true,decide_eq_true_eq]
    exact eq_comm
  | service =>
    simp only [unresolved,after_setService,if_true,stampService,data,isUnknown,Prod.mk.injEq,
      true_and,decide_eq_true_eq]
    exact eq_comm

/-- A stamp reaches the row it names and no other. -/
theorem Registry.get_apply_unresolved (r : Registry) (axis : UnknownAxis) (m n : UInt32) (now : ℕ) :
    (r.apply ⟨now,unresolved axis m⟩).get n =
      if n = m then (r.get n).map (TrainState.after n · ⟨now,unresolved axis n⟩) else r.get n := by
  cases axis with
  | type =>
    simp only [unresolved,apply,get_setType]
    split
    · next h => simp [h]
    · rfl
  | service =>
    simp only [unresolved,apply,get_setService]
    split
    · next h => simp [h]
    · rfl

/-- Stamping a list of trains, some perhaps repeatedly. -/
theorem Registry.get_run_unresolved (r : Registry) (axis : UnknownAxis) (ns : List UInt32) (n : UInt32)
    (now : ℕ) :
    (r.run (ns.map fun m => ⟨now,unresolved axis m⟩)).get n =
      if n ∈ ns then (r.get n).map (TrainState.after n · ⟨now,unresolved axis n⟩) else r.get n := by
  -- a second stamp at the same instant writes the same
  have htwice : (TrainState.after n · ⟨now,unresolved axis n⟩) ∘
      (TrainState.after n · ⟨now,unresolved axis n⟩) =
        (TrainState.after n · ⟨now,unresolved axis n⟩) := by
    funext s
    cases axis <;> simp [unresolved,TrainState.stampType,TrainState.stampService]
  induction ns generalizing r with
  | nil => simp
  | cons m ns ih =>
    rw [List.map_cons,run_cons,ih,get_apply_unresolved]
    by_cases hm : n = m
    · subst hm
      by_cases hmem : n ∈ ns
      · simp only [hmem,if_true,Option.map_map,htwice,List.mem_cons,or_true]
      · simp [hmem]
    · simp [hm]

/-- Stamping a list of trains changes nothing but offsets exactly when all of them that
are registered were unknown. -/
theorem Registry.onlyOffsets_run_unresolved_iff (r : Registry) (axis : UnknownAxis)
    (ns : List UInt32) (now : ℕ) :
    r.OnlyOffsets (r.run (ns.map fun m => ⟨now,unresolved axis m⟩)) ↔
      ∀ n ∈ ns, ∀ row, r.get n = some row → row.isUnknown axis = true := by
  simp only [OnlyOffsets,get_run_unresolved]
  constructor
  · intro h n hn row hrow
    have hdata := h n
    rw [if_pos hn,hrow] at hdata
    exact TrainState.data_after_unresolved_iff.mp (Option.some.inj hdata)
  · intro h n
    split
    · next hn =>
      cases hrow : r.get n with
      | none => rfl
      | some row =>
        exact congrArg some (TrainState.data_after_unresolved_iff.mpr (h n hn row hrow))
    · rfl

namespace NsApi

variable {ε : Type} (json : Json) (headers : List (String × String))

variable (send : Request → Except ε (Response ε))

/-- An answer with a 2xx status that fails the call is one that cannot be read. -/
theorem Call.events_of_fails {call : Call} {now : ℕ} {reg : Registry} {resp : Response ε}
    (hsend : send (call.request headers) = .ok resp) (hstatus : isSuccessful resp.status = true)
    (hfails : (call.perform json send headers now reg).2 = false) :
    call.events json send headers now = [] := by
  rw [Call.events,hsend]
  cases call with
  | types batch =>
    simp only [Call.perform,fetchTypesOn,hsend,hstatus] at hfails
    cases hparse : parseBody resp.body (readTypes json) with
    | error e => simp [hstatus,hparse]
    | ok parsed => simp [hparse,Except.isOk,Except.toBool] at hfails
  | service number =>
    simp only [Call.perform,fetchServiceOn,hsend,hstatus] at hfails
    cases hparse : parseBody resp.body (readJourney json) with
    | error e => simp [hstatus,hparse]
    | ok parsed => simp [hparse,Except.isOk,Except.toBool] at hfails

theorem Call.events_of_status {call : Call} {now : ℕ} {reg : Registry} {resp : Response ε}
    (hsend : send (call.request headers) = .ok resp) (hstatus : isSuccessful resp.status = false) :
    (call.perform json send headers now reg).2 = false ∧
      call.events json send headers now =
        call.requested.map fun n => ⟨now,unresolved call.axis n⟩ := by
  rw [Call.events,hsend]
  cases call with
  | types batch =>
    simp [Call.perform,fetchTypesOn,hsend,hstatus,Except.isOk,Except.toBool,Call.requested,Call.axis,
      unresolved]
  | service number =>
    simp [Call.perform,fetchServiceOn,hsend,hstatus,Except.isOk,Except.toBool,Call.requested,
      Call.axis,unresolved]

/-- A failed call erases nothing exactly when, if a failure status came back, the
requested trains were all unknown. -/
theorem Call.onlyOffsets_perform_iff (call : Call) (now : ℕ) (reg : Registry) :
    ((call.perform json send headers now reg).2 = false →
        reg.OnlyOffsets (call.perform json send headers now reg).1) ↔
      ∀ resp, send (call.request headers) = .ok resp → isSuccessful resp.status = false →
        ∀ n ∈ call.requested, ∀ row, reg.get n = some row → row.isUnknown call.axis = true := by
  rw [Call.perform_fst]
  cases hsend : send (call.request headers) with
  | error e =>
    have hnone : call.events json send headers now = [] := by rw [Call.events,hsend]
    rw [hnone]
    exact iff_of_true (fun _ _ => rfl) (fun resp h => by cases h)
  | ok resp =>
    cases hstatus : isSuccessful resp.status with
    | false =>
      obtain ⟨hfails,hevents⟩ := Call.events_of_status json headers send hsend hstatus
      rw [hfails,hevents,onlyOffsets_run_unresolved_iff]
      constructor
      · intro h resp' _ _
        exact h rfl
      · intro h _
        exact h resp rfl hstatus
    | true =>
      refine iff_of_true (fun hfails => ?_) (fun resp' hresp hno => ?_)
      · rw [Call.events_of_fails json headers send hsend hstatus hfails]
        exact fun _ => rfl
      · cases hresp
        rw [hstatus] at hno
        cases hno

end NsApi

namespace Enrichment

open NsApi

variable {ε : Type} (json : Json) (headers : List (String × String))

/-- The call whose answer is recorded, if it fails, changes at most attempt offsets. -/
def FailureKeeps (s : State ε) (a : Action ε) (s' : State ε) : Prop :=
  ∀ call rest now answer, a = .record → s.api = .recording call rest now answer →
    (call.perform json (fun _ => answer) headers now s.registry).2 = false →
    s.registry.OnlyOffsets s'.registry

/-- The trains of a call that is answered with a failure status are all unknown on its
axis, as far as they are registered. -/
def FailureExpected (s : State ε) (a : Action ε) (_ : State ε) : Prop :=
  ∀ call rest now resp, a = .record → s.api = .recording call rest now (.ok resp) →
    isSuccessful resp.status = false →
    ∀ n ∈ call.requested, ∀ row, s.registry.get n = some row → row.isUnknown call.axis = true

/-- The failed calls of a run erase nothing exactly when none of them was answered with
a failure status while one of its trains was resolved. -/
theorem failureKeeps_iff (as : List (Action ε)) :
    (machine json headers).Always (FailureKeeps json headers) as ↔
      (machine json headers).Always FailureExpected as := by
  refine Machine.always_congr fun pre s a s' _ (hstep : step json headers s a = some s') => ?_
  constructor
  · rintro h call rest now resp rfl hapi hstatus
    have hrecord := h call rest now (.ok resp) rfl hapi
    simp only [step,hapi,Option.some.injEq] at hstep
    rw [← hstep] at hrecord
    exact (call.onlyOffsets_perform_iff json headers _ now s.registry).mp hrecord resp rfl hstatus
  · rintro h call rest now answer rfl hapi
    simp only [step,hapi,Option.some.injEq] at hstep
    rw [← hstep]
    apply (call.onlyOffsets_perform_iff json headers _ now s.registry).mpr
    rintro resp rfl hstatus
    exact h call rest now resp rfl hapi hstatus

/-- The flag of the call whose answer is to be recorded next. -/
def nextRecordSucceeds (s : State ε) : Bool :=
  match s.api with
  | .recording call _ now answer =>
    (call.perform json (fun _ => answer) headers now s.registry).2
  | _ => true

end Enrichment

end Erasure

namespace Enrichment

open NsApi

/-- Train 7 is evicted and seen again while its first request is in flight, so that it is
queued once more. The first answer resolves it and the second has status 500. -/
def requestedTwice : List (Action Unit) :=
  [.receive [⟨7,⟨3,4⟩⟩],.applyMessage,.drain,.openResource true,.tick 301000000,.receive [],
    .applyMessage,.receive [⟨7,⟨3,4⟩⟩],.applyMessage,
    .answer (.ok ⟨200,.ok (utf8 sampleDocument.toList)⟩),.record,.answer (.ok ⟨404,.ok []⟩),.record,
    .publish,.drain,.openResource true,.answer (.ok ⟨500,.ok []⟩)]

theorem not_failureKeeps_requestedTwice : letI := microTicks
    ¬ (machine sampleJson []).Always (FailureKeeps (ε := Unit) sampleJson [])
      (requestedTwice ++ [.record]) := by
  let _ := microTicks
  intro h
  have hsome : ((machine sampleJson []).run requestedTwice).map
      (fun s => (nextRecordSucceeds sampleJson [] s,(s.registry.get 7).map TrainState.data)) =
        some (false,some (⟨3,4⟩,301000000,.sng,.unknown)) := by decide +kernel
  have hafter : ((machine sampleJson []).run (requestedTwice ++ [.record])).map
      (fun s => (s.registry.get 7).map TrainState.data) =
        some (some (⟨3,4⟩,301000000,.unknown,.unknown)) := by decide +kernel
  obtain ⟨s,hrun,hs⟩ := Option.map_eq_some_iff.mp hsome
  obtain ⟨s',hrun',hs'⟩ := Option.map_eq_some_iff.mp hafter
  obtain ⟨_,hrun₁,hstep⟩ := Machine.run_concat_eq_some_iff.mp hrun'
  obtain rfl := Option.some.inj (hrun.symm.trans hrun₁)
  obtain ⟨hfails,hbefore⟩ := Prod.mk.inj hs
  cases hapi : s.api with
  | recording call rest now answer =>
    rw [nextRecordSucceeds,hapi] at hfails
    have hkept := h requestedTwice .record [] s s' rfl hrun hstep call rest now answer rfl hapi
      hfails 7
    rw [hs',hbefore] at hkept
    cases hkept
  | _ => simp [nextRecordSucceeds,hapi] at hfails

end Enrichment

end NsPixels
