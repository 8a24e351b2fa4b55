import NsPixels.DisplayConfig
import NsPixels.Lib.Machine

/-!
# The copy of the configuration in flash

Button presses change `CONFIG` and signal it to the persist task, which stores one
value at a time. The key-value store is a parameter: a value that was stored with
success is fetched again, and a store that fails leaves the flash in any state.
-/

namespace NsPixels

/-- The serialization errors that the configuration can cause. -/
inductive SerializationError
  | bufferTooSmall
  | invalidFormat
deriving DecidableEq, Repr

def VizMode.toU8 : VizMode → UInt8
  | perCluster => 0
  | globalPulse => 1

def VizMode.ofU8 (b : UInt8) : Option VizMode :=
  if b = 0 then some perCluster else if b = 1 then some globalPulse else none

def ColorMode.toU8 : ColorMode → UInt8
  | byType => 0
  | byService => 1

def ColorMode.ofU8 (b : UInt8) : Option ColorMode :=
  if b = 0 then some byType else if b = 1 then some byService else none

@[simp] theorem VizMode.ofU8_toU8 (v : VizMode) : ofU8 v.toU8 = some v := by cases v <;> rfl

@[simp] theorem ColorMode.ofU8_toU8 (c : ColorMode) : ofU8 c.toU8 = some c := by cases c <;> rfl

namespace DisplayConfig

/-- Write `[viz, col]` to the front of the buffer. -/
def serializeInto (cfg : DisplayConfig) (buffer : List UInt8) :
    Except SerializationError (List UInt8 × ℕ) :=
  if buffer.length < 2 then .error .bufferTooSmall
  else .ok ((buffer.set 0 cfg.viz.toU8).set 1 cfg.col.toU8,2)

def deserializeFrom : List UInt8 → Except SerializationError (DisplayConfig × ℕ)
  | viz :: col :: _ =>
    match VizMode.ofU8 viz with
    | none => .error .invalidFormat
    | some viz =>
      match ColorMode.ofU8 col with
      | none => .error .invalidFormat
      | some col => .ok (⟨viz,col⟩,2)
  | _ => .error .bufferTooSmall

theorem serializeInto_ok (cfg : DisplayConfig) {buffer : List UInt8} (h : 2 ≤ buffer.length) :
    ∃ bytes, cfg.serializeInto buffer = .ok (bytes,2) ∧
      bytes.take 2 = [cfg.viz.toU8,cfg.col.toU8] := by
  match buffer,h with
  | _ :: _ :: rest,_ => exact ⟨_,if_neg (by simp),rfl⟩

@[simp] theorem deserializeFrom_bytes (cfg : DisplayConfig) :
    deserializeFrom [cfg.viz.toU8,cfg.col.toU8] = .ok (cfg,2) := by
  simp [deserializeFrom]

end DisplayConfig

namespace Persist

/-- Key of the configuration in the store. -/
def keyDisplayConfig : UInt8 := 0

/-- Length of the buffer for a serialized key and value. -/
def scratchLen : ℕ := 16

/-- Errors of the store: of the flash, or of a value. -/
inductive StoreError (ε : Type*)
  | storage (e : ε)
  | serialization (e : SerializationError)

/-- The key-value store over flash contents `Φ`; `ω` says what the hardware does during
a write. -/
structure MapStorage (Φ ω ε : Type*) where
  /-- the bytes of the last value stored under a key -/
  fetchBytes : Φ → UInt8 → Except ε (Option (List UInt8))
  storeBytes : ω → Φ → UInt8 → List UInt8 → Except ε Unit × Φ

namespace MapStorage

variable {Φ ω ε : Type*} (map : MapStorage Φ ω ε)

/-- What `store_item` wrote when it returned `Ok`, a later `fetch_item` finds. -/
def Durable : Prop := ∀ outcome flash key bytes flash',
  map.storeBytes outcome flash key bytes = (.ok (),flash') →
    map.fetchBytes flash' key = .ok (some bytes)

/-- The key, of one byte, and the value are serialized into the buffer. -/
def storeItem (outcome : ω) (flash : Φ) (buffer : List UInt8) (key : UInt8)
    (cfg : DisplayConfig) : Except (StoreError ε) Unit × Φ :=
  match cfg.serializeInto (buffer.drop 1) with
  | .error e => (.error (.serialization e),flash)
  | .ok (bytes,n) =>
    let (result,flash') := map.storeBytes outcome flash key (bytes.take n)
    (result.mapError .storage,flash')

def fetchItem (flash : Φ) (key : UInt8) : Except (StoreError ε) (Option DisplayConfig) :=
  match map.fetchBytes flash key with
  | .error e => .error (.storage e)
  | .ok none => .ok none
  | .ok (some bytes) =>
    match DisplayConfig.deserializeFrom bytes with
    | .error e => .error (.serialization e)
    | .ok (cfg,_) => .ok (some cfg)

/-- `ConfigStore::load`. -/
def load (flash : Φ) : Option DisplayConfig :=
  match map.fetchItem flash keyDisplayConfig with
  | .ok opt => opt
  | .error _ => none

/-- `ConfigStore::save`. -/
def save (outcome : ω) (flash : Φ) (cfg : DisplayConfig) : Bool × Φ :=
  let (result,flash') :=
    map.storeItem outcome flash (List.replicate scratchLen 0) keyDisplayConfig cfg
  match result with
  | .ok () => (true,flash')
  | .error _ => (false,flash')

variable {map}

/-- A save that succeeds is what the next boot loads. -/
theorem load_of_save (hmap : map.Durable) {outcome : ω} {flash flash' : Φ} {cfg : DisplayConfig}
    (h : map.save outcome flash cfg = (true,flash')) : map.load flash' = some cfg := by
  have hroom : 2 ≤ ((List.replicate scratchLen (0 : UInt8)).drop 1).length := by decide
  obtain ⟨bytes,hser,htake⟩ := cfg.serializeInto_ok hroom
  simp only [save,storeItem,hser,htake] at h
  cases hstore : map.storeBytes outcome flash keyDisplayConfig [cfg.viz.toU8,cfg.col.toU8] with
  | mk result flash₁ =>
    cases result with
    | error e => simp [hstore,Except.mapError] at h
    | ok u =>
      obtain rfl : flash₁ = flash' := by simpa [hstore,Except.mapError] using h
      simp only [load,fetchItem,hmap _ _ _ _ _ hstore,DisplayConfig.deserializeFrom_bytes]

end MapStorage

/-! ### The tasks -/

/-- Where the persist task is. -/
inductive Task
  | waiting
  | saving (cfg : DisplayConfig)
deriving DecidableEq

/-- `requests` and `lastSave` are for the statements only: the number of saves
requested so far and the result of the last save. -/
structure State (Φ : Type*) where
  config : DisplayConfig
  saveSignal : Option DisplayConfig
  flash : Φ
  task : Task
  requests : ℕ
  lastSave : Option Bool

inductive Action (ω : Type*)
  /-- `update_config` and `request_save`, with no await in between -/
  | press (button : Button)
  | wake
  | complete (outcome : ω)

section Tasks

variable {Φ ω ε : Type*} (map : MapStorage Φ ω ε)

/-- After boot: the configuration is the loaded one, if there is one. -/
def State.init (flash : Φ) : State Φ where
  config := (map.load flash).getD DisplayConfig.default
  saveSignal := none
  flash := flash
  task := .waiting
  requests := 0
  lastSave := none

def step (s : State Φ) : Action ω → Option (State Φ)
  | .press button =>
    let cfg := button.cycle s.config
    -- the signal keeps only the latest value
    some { s with config := cfg, saveSignal := some cfg, requests := s.requests + 1 }
  | .wake =>
    match s.task,s.saveSignal with
    | .waiting,some cfg => some { s with saveSignal := none, task := .saving cfg }
    | _,_ => none
  | .complete outcome =>
    match s.task with
    | .saving cfg =>
      let (saved,flash) := map.save outcome s.flash cfg
      some { s with flash := flash, task := .waiting, lastSave := some saved }
    | .waiting => none

/-- The input task and the persist task from a boot with the given flash. -/
def machine (flash : Φ) : Machine (State Φ) (Action ω) := ⟨State.init map flash,step map⟩

variable {map} {s s' : State Φ}

theorem step_wake (h : step map s .wake = some s') : ∃ cfg, s.task = .waiting ∧
    s.saveSignal = some cfg ∧ s' = { s with saveSignal := none, task := .saving cfg } := by
  simp only [step] at h
  split at h
  · next cfg htask hsig =>
    cases h
    exact ⟨cfg,htask,hsig,rfl⟩
  · cases h

theorem step_complete {outcome : ω} (h : step map s (.complete outcome) = some s') :
    ∃ cfg, s.task = .saving cfg ∧ s' = { s with
      flash := (map.save outcome s.flash cfg).2
      task := .waiting
      lastSave := some (map.save outcome s.flash cfg).1 } := by
  simp only [step] at h
  split at h
  · next cfg htask =>
    cases h
    exact ⟨cfg,htask,rfl⟩
  · cases h

variable (map) in
/-- With nothing to save, at least one save requested and the last one not failed, the
flash has the current configuration. -/
def FlashFollows (s : State Φ) : Prop := s.task = .waiting → s.saveSignal = none →
  0 < s.requests → s.lastSave ≠ some false → map.load s.flash = some s.config

variable (map) in
/-- The latest configuration is pending, or it is being saved, or it is in the flash. -/
structure Latest (s : State Φ) : Prop where
  pending : ∀ cfg, s.saveSignal = some cfg → cfg = s.config
  saving : ∀ cfg, s.task = .saving cfg → s.saveSignal = none → cfg = s.config
  stored : FlashFollows map s

theorem latest_step (hmap : map.Durable) {a : Action ω} (h : Latest map s)
    (hstep : step map s a = some s') : Latest map s' := by
  cases a with
  | press button =>
    cases hstep
    -- whatever is being saved, the new configuration is pending
    exact ⟨fun _ hcfg => (Option.some.inj hcfg).symm,by simp,fun _ hsig => by simp at hsig⟩
  | wake =>
    obtain ⟨cfg,_,hsig,rfl⟩ := step_wake hstep
    refine ⟨by simp,?_,fun htask => by simp at htask⟩
    intro cfg' htask _
    rw [← Task.saving.inj htask]
    exact h.pending cfg hsig
  | complete outcome =>
    obtain ⟨cfg,htask,rfl⟩ := step_complete hstep
    refine ⟨h.pending,by simp,?_⟩
    intro _ hsig _ hlast
    -- no press came during the save, so what was saved is the current configuration
    have hcfg := h.saving cfg htask hsig
    have hsaved : (map.save outcome s.flash cfg).1 = true := by
      rw [← Bool.not_eq_false]
      exact fun hfalse => hlast (congrArg some hfalse)
    exact hcfg ▸ MapStorage.load_of_save hmap (Prod.ext hsaved rfl)

/-- The flash follows the live configuration in every reachable state. -/
theorem flashFollows_run (hmap : map.Durable) {flash : Φ} {as : List (Action ω)}
    (h : (machine map flash).run as = some s) : FlashFollows map s := by
  have hlatest : Latest map s := by
    refine Machine.invariant (m := machine map flash) (P := fun s => Latest map s) ?_
      (fun _ _ _ hs ht => latest_step hmap hs ht) h
    exact ⟨by simp [machine,State.init],by simp [machine,State.init],
      fun _ _ hrequests => absurd hrequests (Nat.lt_irrefl 0)⟩
  exact hlatest.stored

end Tasks

/-- A store that appends its items and finds the last one of a key; the hardware may
refuse a write. -/
def logStorage : MapStorage (List (UInt8 × List UInt8)) Bool Unit where
  fetchBytes := fun log key => .ok ((log.findRev? fun item => item.1 == key).map Prod.snd)
  storeBytes := fun fits log key bytes =>
    if fits then (.ok (),log ++ [(key,bytes)]) else (.error (),log)

theorem logStorage_durable : logStorage.Durable := by
  rintro fits log key bytes log' h
  cases fits with
  | false => simp [logStorage] at h
  | true =>
    obtain rfl : log ++ [(key,bytes)] = log' := by simpa [logStorage] using h
    simp [logStorage]

/-- Two presses arrive during a write that fails; the next one succeeds. -/
def busyPresses : List (Action Bool) :=
  [.press .upShort,.wake,.press .down,.press .upShort,.complete false,.wake,.complete true]

theorem flashFollows_busyPresses : ∃ s, (machine logStorage []).run busyPresses = some s ∧
    s.config = ⟨.perCluster,.byService⟩ ∧ FlashFollows logStorage s :=
  ⟨_,rfl,rfl,flashFollows_run logStorage_durable
    (show (machine logStorage []).run busyPresses = some _ from rfl)⟩

end Persist

end NsPixels
