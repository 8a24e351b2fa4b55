import NsPixels.Enrichment
import NsPixels.NsApi.Paths

/-!
# The requests of an iteration

While the enrichment task works through its calls, the requests it has sent and the
calls it still has to make are together the calls of its batches.
-/

namespace NsPixels.Enrichment

open FixedCap NsApi

section Runs

variable [TickRate] {ε : Type} (json : Json) (headers : List (String × String))

omit [TickRate] in
/-- The request that an action sends. -/
def requests (s : State ε) : Action ε → List Request
  | .answer _ =>
    match s.api with
    | .calling (call :: _) => [call.request headers]
    | _ => []
  | _ => []

/-- The call that an action finds to have failed. -/
def failures (s : State ε) : Action ε → List Call
  | .record =>
    match s.api with
    | .recording call _ now answer =>
      if (call.perform json (fun _ => answer) headers now s.registry).2 then [] else [call]
    | _ => []
  | _ => []

/-- The calls that are still to be requested, once the connection is open. -/
def Api.callsLeft : Api ε → Option (List Call)
  | .calling calls => some calls
  | .recording _ rest _ _ => some rest
  | _ => none

variable {json headers} {s s' : State ε} {a : Action ε}

/-- An action that neither publishes nor finds a failure moves requests from the calls
that are left to those that are sent. -/
theorem step_requests {left : List Call} (h : step json headers s a = some s')
    (hleft : s.api.callsLeft = some left) (hpub : a ≠ .publish)
    (hok : failures json headers s a = []) :
    ∃ left', s'.api.callsLeft = some left' ∧
      left.map (Call.request headers) =
        requests headers s a ++ left'.map (Call.request headers) := by
  cases a with
  | tick ticks => cases h; exact ⟨left,hleft,rfl⟩
  | receive trains =>
    simp only [step] at h
    split at h <;> cases h
    exact ⟨left,hleft,rfl⟩
  | applyMessage =>
    simp only [step] at h
    split at h <;> cases h
    exact ⟨left,hleft,rfl⟩
  | drain =>
    simp only [step] at h
    split at h <;> cases h
    next hapi => rw [hapi] at hleft; cases hleft
  | sweep =>
    simp only [step] at h
    split at h
    · next hapi => rw [hapi] at hleft; cases hleft
    · cases h
  | openResource opened =>
    simp only [step] at h
    split at h <;> cases h
    next hapi => rw [hapi] at hleft; cases hleft
  | answer answer =>
    simp only [step] at h
    split at h <;> cases h
    next call rest hapi =>
    rw [hapi] at hleft
    cases hleft
    exact ⟨rest,rfl,by simp only [requests,hapi]; rfl⟩
  | record =>
    simp only [step] at h
    split at h <;> cases h
    next call rest now answer hapi =>
    rw [hapi] at hleft
    cases hleft
    simp only [failures,hapi] at hok
    split at hok
    · next hsucc => exact ⟨left,by simp only [hsucc,if_true]; rfl,rfl⟩
    · cases hok
  | publish => exact absurd rfl hpub

/-- A run without failures that ends with no call left has sent all of them, in order. -/
theorem runFrom_requests {as : List (Action ε)} {left : List Call}
    (hleft : s.api.callsLeft = some left) (hrun : (machine json headers).runFrom s as = some s')
    (hend : s'.api.callsLeft = some []) (hpub : Action.publish ∉ as)
    (hok : (machine json headers).traceFrom (failures json headers) s as = []) :
    (machine json headers).traceFrom (requests headers) s as =
      left.map (Call.request headers) := by
  induction as generalizing s left with
  | nil =>
    rw [Machine.runFrom,Option.some.injEq] at hrun
    rw [hrun,hend,Option.some.injEq] at hleft
    rw [← hleft]
    rfl
  | cons a as ih =>
    rw [Machine.runFrom,Option.bind_eq_some_iff] at hrun
    obtain ⟨t,ht,hrun⟩ := hrun
    rw [Machine.traceFrom,ht,List.append_eq_nil_iff] at hok
    rw [List.mem_cons,not_or] at hpub
    obtain ⟨left',hleft',hsplit⟩ := step_requests ht hleft (Ne.symm hpub.1) hok.1
    rw [Machine.traceFrom,ht,hsplit]
    congr 1
    exact ih hleft' hrun hpub.2 hok.2

/-- When every call of an iteration succeeds, its type requests list the numbers of the
type batch, chunk by chunk behind the fixed part of the path: decoded and put together
they are the batch. The service requests follow. -/
theorem requests_carry_batch {as : List (Action ε)}
    (typeBatch : Vec UInt32 typeBufferCap) (serviceBatch : Vec UInt32 serviceBufferCap)
    (hopen : s.api = .calling (callsFor typeBatch serviceBatch))
    (hrun : (machine json headers).runFrom s as = some s') (hend : s'.api = .calling [])
    (hpub : Action.publish ∉ as)
    (hok : (machine json headers).traceFrom (failures json headers) s as = []) :
    ∃ paths : List (List Char),
      (machine json headers).traceFrom (requests headers) s as =
        paths.map (fun path => ⟨path,headers⟩) ++
          serviceBatch.toList.map (fun n => ⟨(servicePath n).toList,headers⟩) ∧
      paths = (typeBatch.toList.toChunks batchMax).map
        (fun chunk => typesPrefix ++ [','].intercalate (chunk.map digits)) ∧
      ∃ ids, paths.mapM decodePath = some ids ∧ ids.flatten = typeBatch.toList := by
  obtain ⟨hpaths,hdecode⟩ := decode_chunks typeBatch.toList
  refine ⟨_,?_,hpaths,hdecode⟩
  rw [runFrom_requests (by rw [hopen]; rfl) hrun (by rw [hend]; rfl) hpub hok,callsFor,
    List.map_append,List.map_map,List.map_map,List.map_map]
  rfl

end Runs

/-- The last call has been made and recorded. -/
def Api.allDone {ε : Type} : Api ε → Bool
  | .calling [] => true
  | _ => false

theorem Api.eq_of_allDone {ε : Type} {api : Api ε} (h : api.allDone = true) :
    api = .calling [] := by
  unfold allDone at h
  split at h
  · rfl
  · cases h

/-- Nine numbers, one more than a chunk holds. -/
def nineNumbers : Vec UInt32 typeBufferCap := ⟨[7,9,11,13,15,17,19,4294967295,0],by decide⟩

/-- The task at work on their calls, at boot. -/
def callingNine : State Unit :=
  { State.init Unit with api := .calling (callsFor nineNumbers Vec.empty) }

/-- Both calls are answered with the same document. -/
def answeredTwice : List (Action Unit) :=
  [.answer (.ok ⟨200,.ok (utf8 sampleDocument.toList)⟩),.tick 5,.record,
    .answer (.ok ⟨200,.ok (utf8 sampleDocument.toList)⟩),.record]

theorem requests_carry_batch_nine : letI := microTicks
    ∃ paths : List (List Char),
      (machine sampleJson []).traceFrom (requests []) callingNine answeredTwice =
        paths.map (fun path => ⟨path,[]⟩) ++
          (Vec.empty : Vec UInt32 serviceBufferCap).toList.map
            (fun n => ⟨(servicePath n).toList,[]⟩) ∧
      paths = (nineNumbers.toList.toChunks batchMax).map
        (fun chunk => typesPrefix ++ [','].intercalate (chunk.map digits)) ∧
      ∃ ids, paths.mapM decodePath = some ids ∧ ids.flatten = nineNumbers.toList := by
  let _ := microTicks
  have hdone : ((machine sampleJson []).runFrom callingNine answeredTwice).map
      (fun s => s.api.allDone) = some true := by decide +kernel
  obtain ⟨s',hrun,hend⟩ := Option.map_eq_some_iff.mp hdone
  exact requests_carry_batch nineNumbers Vec.empty rfl hrun (Api.eq_of_allDone hend)
    (by simp [answeredTwice]) (by decide +kernel)

end NsPixels.Enrichment
