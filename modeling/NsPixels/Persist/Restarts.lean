import NsPixels.Persist
import NsPixels.Input
import NsPixels.Lib.Recovery

/-!
# Restarts

The buttons, the persist task and the flash over any number of boots. Power may be cut at
any moment, in the middle of a write as well; `main` then loads the configuration anew.
-/

namespace NsPixels.Persist

open Recovery

namespace MapStorage

variable {Φ ω ε : Type*} (map : MapStorage Φ ω ε)

/-- However a write goes, the value before it or the new one is found afterwards. -/
def PowerFailSafe : Prop := ∀ outcome flash key bytes,
  map.fetchBytes (map.storeBytes outcome flash key bytes).2 key = map.fetchBytes flash key ∨
    map.fetchBytes (map.storeBytes outcome flash key bytes).2 key = .ok (some bytes)

variable {map}

theorem load_eq_of_fetchBytes {flash flash' : Φ}
    (h : map.fetchBytes flash' keyDisplayConfig = map.fetchBytes flash keyDisplayConfig) :
    map.load flash' = map.load flash := by
  rw [load,load,fetchItem,fetchItem,h]

/-- A save keeps the configuration in the flash or replaces it. -/
theorem load_save (hsafe : map.PowerFailSafe) (outcome : ω) (flash : Φ) (cfg : DisplayConfig) :
    map.load (map.save outcome flash cfg).2 = map.load flash ∨
      map.load (map.save outcome flash cfg).2 = some cfg := by
  have hroom : 2 ≤ ((List.replicate scratchLen (0 : UInt8)).drop 1).length := by decide
  obtain ⟨bytes,hser,htake⟩ := cfg.serializeInto_ok hroom
  have hflash : (map.save outcome flash cfg).2 =
      (map.storeBytes outcome flash keyDisplayConfig [cfg.viz.toU8,cfg.col.toU8]).2 := by
    simp only [save,storeItem,hser,htake]
    cases hstore : map.storeBytes outcome flash keyDisplayConfig [cfg.viz.toU8,cfg.col.toU8] with
    | mk result flash' => cases result <;> simp [hstore,Except.mapError]
  rw [hflash]
  refine (hsafe outcome flash keyDisplayConfig [cfg.viz.toU8,cfg.col.toU8]).imp
    load_eq_of_fetchBytes fun h => ?_
  simp only [load,fetchItem,h,DisplayConfig.deserializeFrom_bytes]

end MapStorage

/-- The device while it is powered. -/
structure Device (Φ : Type*) where
  input : Input.State
  saveSignal : Option DisplayConfig
  flash : Φ
  task : Task

inductive Move (ω : Type*)
  /-- the buttons, their task and the clock -/
  | input (a : Input.Action)
  | wake
  | complete (outcome : ω)
  /-- power is cut, which may be the outcome of a write, and comes back -/
  | cut (outcome : ω)

/-- The configuration that the outputs ask to save. -/
def requests (os : List Input.Output) : List DisplayConfig :=
  os.filterMap fun o =>
    match o with
    | .save _ cfg => some cfg
    | .toggleMode => none

section Restarts

variable {Φ ω ε : Type*} (map : MapStorage Φ ω ε)

/-- `main` up to the input task; the buttons are as they are. -/
def boot (flash : Φ) (low : Input.Pin → Bool) : Device Φ where
  input := .init ⟨(map.load flash).getD .default,low⟩
  saveSignal := none
  flash := flash
  task := .waiting

/-- The flash after a cut. -/
def Device.torn (s : Device Φ) (outcome : ω) : Φ :=
  match s.task with
  | .saving cfg => (map.save outcome s.flash cfg).2
  | .waiting => s.flash

variable [TickRate]

namespace Device

def step (s : Device Φ) : Move ω → Option (Device Φ)
  | .input a =>
    (Input.step s.input a).map fun input =>
      -- the signal keeps only the latest value
      { s with
        input := input
        saveSignal := (requests (Input.emits s.input a)).getLast?.or s.saveSignal }
  | .wake =>
    match s.task,s.saveSignal with
    | .waiting,some cfg => some { s with saveSignal := none,task := .saving cfg }
    | _,_ => none
  | .complete outcome =>
    match s.task with
    | .saving cfg => some { s with flash := (map.save outcome s.flash cfg).2,task := .waiting }
    | .waiting => none
  | .cut outcome => some (boot map (s.torn map outcome) s.input.low)

/-- What a move says of the configuration. -/
def notes (s : Device Φ) : Move ω → List (Note DisplayConfig)
  | .input a => (requests (Input.emits s.input a)).map .requested
  | .wake => [.started]
  | .complete outcome =>
    match s.task with
    | .saving cfg => if (map.save outcome s.flash cfg).1 then [.stored] else []
    | .waiting => []
  | .cut outcome => [.booted ((map.load (s.torn map outcome)).getD .default)]

/-- The device from its first boot. -/
def machine (flash : Φ) : Machine (Device Φ) (Move ω) := ⟨boot map flash fun _ => false,step map⟩

/-- The history of the configuration, from the first boot on. -/
def log (flash : Φ) (as : List (Move ω)) : List (Note DisplayConfig) :=
  .booted ((map.load flash).getD .default) :: (machine map flash).trace (notes map) as

variable {map} {s s' : Device Φ} {a : Move ω} {l : List (Note DisplayConfig)} {flash : Φ}
  {as : List (Move ω)}

theorem log_concat (h : (machine map flash).run as = some s) (a : Move ω) :
    log map flash (as ++ [a]) = log map flash as ++ notes map s a := by
  rw [log,Machine.trace_concat _ h,log,List.cons_append]

variable (map) in
/-- The configuration is the last of the history, the flash holds one that may be recovered,
the signal the one requested last and the task the one that is being written. -/
structure Tracks (l : List (Note DisplayConfig)) (s : Device Φ) : Prop where
  live : Current l s.input.config
  flash : Recoverable l ((map.load s.flash).getD .default)
  signal : ∀ cfg, s.saveSignal = some cfg → Newest l cfg
  task : ∀ cfg, s.task = .saving cfg → Writing l cfg

omit [TickRate] in
/-- A cut in the middle of a write finds what was there or what was written. -/
theorem Tracks.torn (hsafe : map.PowerFailSafe) (h : Tracks map l s) (outcome : ω) :
    Recoverable l ((map.load (s.torn map outcome)).getD .default) := by
  rw [Device.torn]
  cases htask : s.task with
  | waiting => exact h.flash
  | saving cfg =>
    dsimp only
    obtain hold | hnew := MapStorage.load_save hsafe outcome s.flash cfg
    · rw [hold]
      exact h.flash
    · rw [hnew]
      exact (h.task cfg htask).recoverable

/-- A step of the buttons requests nothing and keeps the configuration, or requests the
one it makes. -/
theorem requests_cases {input input' : Input.State} {a : Input.Action}
    (h : Input.step input a = some input') :
    (requests (Input.emits input a) = [] ∧ input'.config = input.config) ∨
      requests (Input.emits input a) = [input'.config] := by
  obtain ⟨hconfig,hsaves⟩ := Input.step_config h
  rcases Input.emits_cases input a with hnone | ⟨o,hone⟩
  · rw [hnone] at hconfig ⊢
    exact .inl ⟨rfl,hconfig⟩
  · rw [hone] at hconfig hsaves ⊢
    cases o with
    | save button cfg => exact .inr (congrArg (fun c => [c]) (hsaves.1.trans hconfig.symm))
    | toggleMode => exact .inl ⟨rfl,hconfig⟩

theorem Tracks.step (hmap : map.Durable) (hsafe : map.PowerFailSafe) (h : Tracks map l s)
    (hstep : step map s a = some s') : Tracks map (l ++ notes map s a) s' := by
  cases a with
  | input a =>
    obtain ⟨input,hinput,rfl⟩ := Option.map_eq_some_iff.mp hstep
    rw [notes]
    rcases requests_cases hinput with ⟨hnone,hconfig⟩ | hone
    · simp only [hnone,List.getLast?_nil,Option.none_or,List.map_nil,List.append_nil]
      exact ⟨hconfig ▸ h.live,h.flash,h.signal,h.task⟩
    · simp only [hone,List.getLast?_singleton,Option.some_or,List.map_cons,List.map_nil]
      refine ⟨current_concat l (.inl rfl),h.flash.concat (by simp) (by simp),fun cfg hsig => ?_,
        fun cfg htask => (h.task cfg htask).concat_requested _⟩
      obtain rfl := Option.some.inj hsig
      exact newest_requested l _
  | wake =>
    simp only [Device.step] at hstep
    split at hstep <;> cases hstep
    next cfg htask hsig =>
      refine ⟨h.live.concat (by simp [Note.Carries]),h.flash.concat (by simp) (by simp),by simp,
        fun cfg' htask' => ?_⟩
      obtain rfl := Task.saving.inj htask'
      exact (h.signal cfg hsig).writing
  | complete outcome =>
    simp only [Device.step] at hstep
    split at hstep <;> cases hstep
    next cfg htask =>
      have htorn := h.torn hsafe outcome
      rw [Device.torn,htask] at htorn
      simp only [notes,htask]
      split
      · next hsaved =>
        refine ⟨h.live.concat (by simp [Note.Carries]),?_,
          fun cfg' hsig => (h.signal cfg' hsig).concat_stored,by simp⟩
        have hload : map.load (map.save outcome s.flash cfg).2 = some cfg :=
          MapStorage.load_of_save hmap (Prod.ext hsaved rfl)
        rw [hload]
        exact (h.task cfg htask).stored
      · rw [List.append_nil]
        exact ⟨h.live,htorn,h.signal,by simp⟩
  | cut outcome =>
    cases hstep
    exact ⟨current_concat l (.inr rfl),recoverable_booted l _,by simp [boot],by simp [boot]⟩

theorem tracks_run (hmap : map.Durable) (hsafe : map.PowerFailSafe)
    (h : (machine map flash).run as = some s) : Tracks map (log map flash as) s := by
  refine Machine.run_induction (m := machine map flash)
    (P := fun as s => Tracks map (log map flash as) s) ?_ ?_ h
  · exact ⟨current_concat [] (.inr rfl),recoverable_booted [] _,by simp [machine,boot],
      by simp [machine,boot]⟩
  · intro as s a s' hrun htracks hstep
    rw [log_concat hrun]
    exact htracks.step hmap hsafe hstep

/-- Whenever power is cut, the device comes back with a configuration that is at least as
new as the last one a save of which was confirmed; with the last one requested, if that is
the one. -/
theorem recovers (hmap : map.Durable) (hsafe : map.PowerFailSafe)
    (h : (machine map flash).run as = some s) (outcome : ω) :
    Current (log map flash as) s.input.config ∧
      ∃ s', (machine map flash).run (as ++ [.cut outcome]) = some s' ∧
        Recoverable (log map flash as) s'.input.config ∧
        ∀ cfg, Confirmed (log map flash as) cfg → s'.input.config = cfg := by
  have htracks := tracks_run hmap hsafe h
  have hfound := htracks.torn hsafe outcome
  exact ⟨htracks.live,_,Machine.run_concat_eq_some_iff.mpr ⟨s,h,rfl⟩,hfound,
    fun cfg => hfound.eq_of_confirmed⟩

end Device

end Restarts

theorem logStorage_powerFailSafe : logStorage.PowerFailSafe := by
  intro fits log key bytes
  cases fits with
  | false => exact .inl rfl
  | true =>
    refine .inr ?_
    simp [logStorage]

/-- The visualisation is changed and saved, then the colors, and power is cut during the
second save. -/
def cutInSave : List (Move Bool) :=
  (Input.bothPressed.take 10).map .input ++ [.wake,.complete true] ++
    (Input.bothPressed.drop 10).map .input ++ [.wake]

theorem recovers_cutInSave : letI := microTicks
    ∃ s s', (Device.machine logStorage []).run cutInSave = some s ∧
      (Device.machine logStorage []).run (cutInSave ++ [.cut false]) = some s' ∧
      s.input.config = ⟨.globalPulse,.byService⟩ ∧ s'.input.config = ⟨.globalPulse,.byType⟩ ∧
      Recoverable (Device.log logStorage [] cutInSave) s'.input.config := by
  let _ := microTicks
  have hsome : ((Device.machine logStorage []).run cutInSave).isSome = true := by decide +kernel
  obtain ⟨s,hs⟩ := Option.isSome_iff_exists.mp hsome
  obtain ⟨-,s',hs',hfound,-⟩ :=
    Device.recovers logStorage_durable logStorage_powerFailSafe hs false
  have hbefore : ((Device.machine logStorage []).run cutInSave).map (fun s => s.input.config) =
      some ⟨.globalPulse,.byService⟩ := by decide +kernel
  have hafter : ((Device.machine logStorage []).run (cutInSave ++ [.cut false])).map
      (fun s => s.input.config) = some ⟨.globalPulse,.byType⟩ := by decide +kernel
  rw [hs] at hbefore
  rw [hs'] at hafter
  exact ⟨s,s',hs,hs',Option.some.inj hbefore,Option.some.inj hafter,hfound⟩

end NsPixels.Persist
