import NsPixels.Lib.Machine
import NsPixels.NsApi.Stamping
import NsPixels.Registry.Sweep
import NsPixels.Registry.Attempts

/-!
# The feed and the enrichment task

The two tasks that write the registry, as one machine. Each action runs from one
await to the next, so an instant taken before the lock is awaited may be older than
the clock when the lock is held. What the network answers is part of the action.
-/

namespace NsPixels.Enrichment

open FixedCap NsApi Registry

/-- Seconds of `STALE_AFTER`. -/
def staleAfterS : ℕ := 60 * 5

/-- A train of a feed message: its number and projected position. -/
structure Train where
  number : UInt32
  pixel : PixelCoord
deriving DecidableEq, Repr

/-- Where the feed task is. -/
inductive Feed
  /-- awaiting a message -/
  | receiving
  /-- a message parsed at `now`, awaiting the lock -/
  | locking (now : ℕ) (trains : List Train)

/-- Where the enrichment task is. -/
inductive Api (ε : Type)
  | waiting
  /-- no number was queued; awaiting the lock for the sweep -/
  | sweeping (typeBatch : Vec UInt32 typeBufferCap) (serviceBatch : Vec UInt32 serviceBufferCap)
  | opening (typeBatch : Vec UInt32 typeBufferCap) (serviceBatch : Vec UInt32 serviceBufferCap)
  /-- the calls still to make on the open connection -/
  | calling (calls : List Call)
  /-- `answer` came in at `now`, awaiting the lock -/
  | recording (call : Call) (rest : List Call) (now : ℕ) (answer : Except ε (Response ε))

structure State (ε : Type) where
  clock : ℕ
  registry : Registry
  queue : Vec UInt32 queueCapacity
  feed : Feed
  api : Api ε

def State.init (ε : Type) : State ε := ⟨0,Registry.new,Vec.empty,.receiving,.waiting⟩

inductive Action (ε : Type)
  | tick (ticks : ℕ)
  | receive (trains : List Train)
  | applyMessage
  | drain
  | sweep
  | openResource (opened : Bool)
  | answer (answer : Except ε (Response ε))
  | record
  | publish

/-- Take numbers off the queue until the type buffer is full. A full service buffer
drops the number. -/
def drainQueue (queue : Vec UInt32 queueCapacity) (typeBatch : Vec UInt32 typeBufferCap)
    (serviceBatch : Vec UInt32 serviceBufferCap) :
    Vec UInt32 queueCapacity × Vec UInt32 typeBufferCap × Vec UInt32 serviceBufferCap :=
  if typeBatch.len < typeBufferCap then
    match _h : queue.popFront with
    | some (n,queue') => drainQueue queue' (typeBatch.pushOrDrop n) (serviceBatch.pushOrDrop n)
    | none => (queue,typeBatch,serviceBatch)
  else (queue,typeBatch,serviceBatch)
termination_by queue.len
decreasing_by
  rw [Vec.len,Vec.len,Vec.popFront_eq_some_iff.mp _h]
  exact Nat.lt_succ_self _

/-- The calls of an iteration: the type batch in chunks, then the service batch. -/
def callsFor (typeBatch : Vec UInt32 typeBufferCap) (serviceBatch : Vec UInt32 serviceBufferCap) :
    List Call :=
  (typeBatch.toList.toChunks batchMax).map .types ++ serviceBatch.toList.map .service

section Runs

variable [TickRate]

/-- One train of a message: a new one is offered to the queue, which drops it when full. -/
def applyTrain (now : ℕ) (acc : Registry × Vec UInt32 queueCapacity) (t : Train) :
    Registry × Vec UInt32 queueCapacity :=
  let (reg,isNew) := acc.1.upsert t.number t.pixel now
  (reg,if isNew then acc.2.pushOrDrop t.number else acc.2)

/-- Apply a message under the lock. -/
def applyMessage (now : ℕ) (trains : List Train) (reg : Registry)
    (queue : Vec UInt32 queueCapacity) : Registry × Vec UInt32 queueCapacity :=
  let cutoff := (Instant.checkedSub now (Duration.fromSecs staleAfterS)).getD now
  -- until the clock has run for `staleAfterS` nothing is evicted
  let reg := if cutoff ≠ now then (reg.evictOlderThan cutoff).1 else reg
  trains.foldl (applyTrain now) (reg,queue)

variable {ε : Type} (json : Json) (headers : List (String × String))

/-- One action; `none` when the task is elsewhere. -/
def step (s : State ε) : Action ε → Option (State ε)
  | .tick ticks => some { s with clock := s.clock + ticks }
  | .receive trains =>
    match s.feed with
    | .receiving => some { s with feed := .locking s.clock trains }
    | .locking _ _ => none
  | .applyMessage =>
    match s.feed with
    | .receiving => none
    | .locking now trains =>
      let (registry,queue) := applyMessage now trains s.registry s.queue
      some { s with registry := registry, queue := queue, feed := .receiving }
  | .drain =>
    match s.api with
    | .waiting =>
      -- from here on the numbers are nowhere but in the batches
      let (queue,typeBatch,serviceBatch) := drainQueue s.queue Vec.empty Vec.empty
      some { s with
        queue := queue
        api := if typeBatch.len = 0 then .sweeping typeBatch serviceBatch
          else .opening typeBatch serviceBatch }
    | _ => none
  | .sweep =>
    match s.api with
    | .sweeping typeBatch serviceBatch =>
      (s.registry.pendingEnrichment typeBatch serviceBatch (Duration.fromSecs retryCooldownS)
        s.clock).map fun bufs =>
        { s with api := if bufs.1.len = 0 ∧ bufs.2.len = 0 then .waiting
            else .opening bufs.1 bufs.2 }
    | _ => none
  | .openResource opened =>
    match s.api with
    | .opening typeBatch serviceBatch =>
      -- without a connection both batches are dropped
      some { s with api := if opened then .calling (callsFor typeBatch serviceBatch)
        else .waiting }
    | _ => none
  | .answer answer =>
    match s.api with
    | .calling (call :: rest) => some { s with api := .recording call rest s.clock answer }
    | _ => none
  | .record =>
    match s.api with
    | .recording call rest now answer =>
      -- an error abandons the calls that are left
      let (registry,ok) := call.perform json (fun _ => answer) headers now s.registry
      some { s with registry := registry, api := .calling (if ok then rest else []) }
    | _ => none
  | .publish =>
    match s.api with
    | .calling [] => some { s with api := .waiting }
    | _ => none

/-- Both tasks, from boot. -/
def machine : Machine (State ε) (Action ε) := ⟨State.init ε,step json headers⟩

/-! ### The registry operations of a run -/

/-- What a message parsed at `now` does to the registry. -/
def messageEvents (now : ℕ) (trains : List Train) : List Event :=
  let cutoff := (Instant.checkedSub now (Duration.fromSecs staleAfterS)).getD now
  (if cutoff ≠ now then [⟨now,.evictOlderThan cutoff⟩] else []) ++
    trains.map fun t => ⟨now,.upsert t.number t.pixel⟩

/-- What an action does to the registry. -/
def events (s : State ε) : Action ε → List Event
  | .applyMessage =>
    match s.feed with
    | .receiving => []
    | .locking now trains => messageEvents now trains
  | .record =>
    match s.api with
    | .recording call _ now answer => call.events json (fun _ => answer) headers now
    | _ => []
  | _ => []

theorem foldl_applyTrain_fst (now : ℕ) (trains : List Train) (reg : Registry)
    (queue : Vec UInt32 queueCapacity) :
    (trains.foldl (applyTrain now) (reg,queue)).1 =
      reg.run (trains.map fun t => ⟨now,.upsert t.number t.pixel⟩) := by
  induction trains generalizing reg queue with
  | nil => rfl
  | cons t trains ih =>
    rw [List.foldl_cons,List.map_cons,run_cons]
    exact ih _ _

theorem applyMessage_fst (now : ℕ) (trains : List Train) (reg : Registry)
    (queue : Vec UInt32 queueCapacity) :
    (applyMessage now trains reg queue).1 = reg.run (messageEvents now trains) := by
  rw [applyMessage,foldl_applyTrain_fst,messageEvents,run_append]
  congr 1
  split <;> rfl

theorem messageEvents_now {now : ℕ} {trains : List Train} :
    ∀ e ∈ messageEvents now trains, e.now = now := by
  intro e he
  rw [messageEvents,List.mem_append] at he
  obtain he | he := he
  · split at he
    · rw [List.mem_singleton.mp he]
    · cases he
  · obtain ⟨t,_,rfl⟩ := List.mem_map.mp he
    rfl

variable {json headers} {s s' : State ε} {a : Action ε}

/-- The registry changes by the events of the action and in no other way. -/
theorem step_registry (h : step json headers s a = some s') :
    s'.registry = s.registry.run (events json headers s a) := by
  cases a with
  | tick ticks => cases h; rfl
  | receive trains =>
    simp only [step] at h
    split at h <;> cases h
    rfl
  | applyMessage =>
    simp only [step] at h
    split at h <;> cases h
    next hf => simp only [events,hf,applyMessage_fst]
  | drain =>
    simp only [step] at h
    split at h <;> cases h
    rfl
  | sweep =>
    simp only [step] at h
    split at h
    · obtain ⟨bufs,_,rfl⟩ := Option.map_eq_some_iff.mp h
      rfl
    · cases h
  | openResource opened =>
    simp only [step] at h
    split at h <;> cases h
    rfl
  | answer answer =>
    simp only [step] at h
    split at h <;> cases h
    rfl
  | record =>
    simp only [step] at h
    split at h <;> cases h
    next hapi => simp only [events,hapi,Call.perform_fst]
  | publish =>
    simp only [step] at h
    split at h <;> cases h
    rfl

/-! ### Instants lie in the past -/

/-- An instant the task holds on to is at most `t`. -/
def Feed.TakenBy (t : ℕ) : Feed → Prop
  | .receiving => True
  | .locking now _ => now ≤ t

def Api.TakenBy (t : ℕ) : Api ε → Prop
  | .recording _ _ now _ => now ≤ t
  | _ => True

/-- No instant in the system is ahead of the clock. -/
structure Timely (s : State ε) : Prop where
  feed : s.feed.TakenBy s.clock
  api : s.api.TakenBy s.clock
  seen : s.registry.SeenBy s.clock

omit [TickRate] in
theorem Feed.TakenBy.mono {feed : Feed} {t t' : ℕ} (h : feed.TakenBy t) (ht : t ≤ t') :
    feed.TakenBy t' := by
  cases feed with
  | receiving => trivial
  | locking now trains => exact Nat.le_trans h ht

omit [TickRate] in
theorem Api.TakenBy.mono {api : Api ε} {t t' : ℕ} (h : api.TakenBy t) (ht : t ≤ t') :
    api.TakenBy t' := by
  cases api with
  | recording call rest now answer => exact Nat.le_trans h ht
  | _ => trivial

omit [TickRate] in
theorem Timely.init : Timely (State.init ε) :=
  ⟨trivial,trivial,fun _ _ hs => by cases hs⟩

/-- The operations of an action are timed no later than the clock. -/
theorem Timely.events_now (hs : Timely s) :
    ∀ e ∈ events json headers s a, e.now ≤ s.clock := by
  intro e he
  cases a with
  | applyMessage =>
    simp only [events] at he
    split at he
    · cases he
    · next now trains hf =>
      have htaken := hs.feed
      rw [hf] at htaken
      exact (messageEvents_now e he).trans_le htaken
  | record =>
    simp only [events] at he
    split at he
    · next call rest now answer hapi =>
      have htaken := hs.api
      rw [hapi] at htaken
      exact (Call.events_now json _ headers e he).trans_le htaken
    · cases he
  | _ => cases he

theorem Timely.step (hs : Timely s) (h : step json headers s a = some s') : Timely s' := by
  have hseen : s'.registry.SeenBy s.clock :=
    step_registry h ▸ hs.seen.run_of_le hs.events_now
  cases a with
  | tick ticks =>
    cases h
    have hle : s.clock ≤ s.clock + ticks := Nat.le_add_right _ _
    exact ⟨hs.feed.mono hle,hs.api.mono hle,hseen.mono hle⟩
  | receive trains =>
    simp only [Enrichment.step] at h
    split at h <;> cases h
    exact ⟨Nat.le_refl _,hs.api,hseen⟩
  | applyMessage =>
    simp only [Enrichment.step] at h
    split at h <;> cases h
    exact ⟨trivial,hs.api,hseen⟩
  | drain =>
    simp only [Enrichment.step] at h
    split at h <;> cases h
    refine ⟨hs.feed,?_,hseen⟩
    dsimp only
    split <;> trivial
  | sweep =>
    simp only [Enrichment.step] at h
    split at h
    · obtain ⟨bufs,_,rfl⟩ := Option.map_eq_some_iff.mp h
      refine ⟨hs.feed,?_,hseen⟩
      dsimp only
      split <;> trivial
    · cases h
  | openResource opened =>
    simp only [Enrichment.step] at h
    split at h <;> cases h
    refine ⟨hs.feed,?_,hseen⟩
    dsimp only
    split <;> trivial
  | answer answer =>
    simp only [Enrichment.step] at h
    split at h <;> cases h
    exact ⟨hs.feed,Nat.le_refl _,hseen⟩
  | record =>
    simp only [Enrichment.step] at h
    split at h <;> cases h
    exact ⟨hs.feed,trivial,hseen⟩
  | publish =>
    simp only [Enrichment.step] at h
    split at h <;> cases h
    exact ⟨hs.feed,trivial,hseen⟩

/-! ### Runs -/

variable {as : List (Action ε)}

theorem timely_run (h : (machine json headers).run as = some s) : Timely s :=
  Machine.invariant Timely.init
    (fun s a s' hs (ht : step json headers s a = some s') => hs.step ht) h

/-- The registry of a run is the outcome of its registry operations. -/
theorem registry_run (h : (machine json headers).run as = some s) :
    s.registry = Registry.new.run ((machine json headers).trace (events json headers) as) := by
  refine Machine.run_induction (m := machine json headers)
    (P := fun as s => s.registry =
      Registry.new.run ((machine json headers).trace (events json headers) as)) rfl ?_ h
  intro as s a s' hrun hs ht
  rw [Machine.trace_concat _ hrun,run_append,← hs]
  exact step_registry ht

/-- What the sweep can rely on in `s`, reached by the operations `es`. -/
structure NoneLost (es : List Event) (s : State ε) : Prop where
  seen : s.registry.SeenBy s.clock
  /-- the sweep does not panic and appends the candidates there is room for -/
  sweeps : ∀ (N M : ℕ) (tBuf : Vec UInt32 N) (sBuf : Vec UInt32 M) (cooldown : ℕ),
    ∃ tBuf' sBuf', s.registry.pendingEnrichment tBuf sBuf cooldown s.clock = some (tBuf',sBuf') ∧
      tBuf'.toList = tBuf.toList ++ (candidates .type s.clock (Duration.asSecs cooldown)
        s.registry.map.entries).take (N - tBuf.len) ∧
      sBuf'.toList = sBuf.toList ++ (candidates .service s.clock (Duration.asSecs cooldown)
        s.registry.map.entries).take (M - sBuf.len)
  sentinel : ∀ axis n row, s.registry.get n = some row →
    (row.attemptAgoS axis = TrainState.attemptNever ↔ ¬ Attempted axis n es)
  candidate : ∀ axis n row, s.registry.get n = some row → row.isUnknown axis = true →
    ¬ Attempted axis n es → ∀ cooldown,
      n ∈ candidates axis s.clock (Duration.asSecs cooldown) s.registry.map.entries

/-- In every reachable state no unknown train without an attempt is lost to the sweep. -/
theorem noneLost_run (h : (machine json headers).run as = some s) :
    NoneLost ((machine json headers).trace (events json headers) as) s := by
  have hseen := (timely_run h).seen
  have hreg := registry_run h
  refine ⟨hseen,?_,?_,?_⟩
  · intro N M tBuf sBuf cooldown
    exact pendingEnrichment_spec hseen.entries cooldown tBuf sBuf
  · intro axis n row hrow
    rw [hreg] at hrow
    exact attemptAgoS_eq_attemptNever_iff hrow
  · intro axis n row hrow hunknown hnot cooldown
    refine mem_candidates_iff.mpr ⟨row,get_eq_some_iff.mp hrow,?_⟩
    rw [hreg] at hrow
    exact wants_of_not_attempted hrow hunknown hnot _ _

end Runs

/-- Train 7 is queued, drained, and dropped because the connection does not open. -/
def dropped : List (Action Unit) :=
  [.receive [⟨7,⟨3,4⟩⟩],.applyMessage,.drain,.openResource false,.tick 2000000]

theorem noneLost_dropped : letI := microTicks
    ∃ s, (machine sampleJson []).run dropped = some s ∧
      NoneLost ((machine sampleJson []).trace (events sampleJson []) dropped) s := by
  let _ := microTicks
  have hsome : ((machine sampleJson []).run dropped).isSome = true := by decide +kernel
  obtain ⟨s,hs⟩ := Option.isSome_iff_exists.mp hsome
  exact ⟨s,hs,noneLost_run hs⟩

end NsPixels.Enrichment
