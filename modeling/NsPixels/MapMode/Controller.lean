import NsPixels.Lib.Machine
import NsPixels.MapMode
import NsPixels.Time

/-!
# The map mode controller

The controller waits for its timer or for the signal of a manual toggle, whichever comes
first. Its `select` polls the timer first, so when both are ready the timer wins and the
signal stays pending.
-/

namespace NsPixels.Controller

/-- Seconds of `AUTO_INTERVAL`. -/
def autoIntervalS : ℕ := 5 * 60

inductive Either
  | first
  | second
deriving DecidableEq, Repr

/-- One poll of `select` on two futures. -/
def select (firstReady secondReady : Bool) : Option Either :=
  if firstReady then some .first
  else if secondReady then some .second
  else none

/-- Where the controller task is. -/
inductive Task
  /-- in `republish`, and before the loop is entered -/
  | republishing
  /-- awaiting the timer or the signal -/
  | selecting (deadline : ℕ)
deriving DecidableEq, Repr

structure State where
  clock : ℕ
  mode : UInt8
  changed : Bool
  task : Task
deriving DecidableEq, Repr

def State.init : State := ⟨0,MapMode.netherlands.toU8,false,.republishing⟩

inductive Action
  | tick (ticks : ℕ)
  /-- a long press -/
  | toggle
  /-- the executor polls the waiting controller -/
  | poll
  /-- `republish` returns and the loop arms a new timer -/
  | resume
deriving DecidableEq, Repr

/-- Whether the controller runs. -/
def Action.isController : Action → Bool
  | poll => true
  | resume => true
  | _ => false

/-- `set(current().next())`. -/
def flip (s : State) : State := { s with mode := (MapMode.current s.mode).next.toU8 }

def toggle (s : State) : State := { flip s with changed := true }

/-- Poll the `select` whose timer expires at `deadline`. -/
def pollSelect (deadline : ℕ) (s : State) : State :=
  match select (deadline ≤ s.clock) s.changed with
  | some .first => { flip s with task := .republishing }
  | some .second => { s with changed := false, task := .republishing }
  | none => { s with task := .selecting deadline }

/-- The actions since the controller last ran, latest first. -/
def sinceController (as : List Action) : List Action :=
  as.reverse.takeWhile fun a => !a.isController

theorem select_eq_first_iff {b c : Bool} : select b c = some .first ↔ b = true := by
  cases b <;> cases c <;> decide

theorem sinceController_concat (as : List Action) (a : Action) :
    sinceController (as ++ [a]) = if a.isController then [] else a :: sinceController as := by
  rw [sinceController,List.reverse_append,List.reverse_singleton,List.singleton_append,
    List.takeWhile_cons]
  cases a.isController <;> rfl

/-- A poll leaves the controller waiting only if it found no signal. -/
theorem pollSelect_selecting {s : State} {deadline d : ℕ}
    (h : (pollSelect deadline s).task = .selecting d) : (pollSelect deadline s).changed = false := by
  rw [pollSelect] at h ⊢
  cases hs : select (deadline ≤ s.clock) s.changed with
  | none =>
    cases hc : s.changed with
    | false => rfl
    | true =>
      rw [hc,select] at hs
      split at hs <;> cases hs
  | some e =>
    rw [hs] at h
    cases e <;> cases h

section Runs

variable [TickRate]

/-- The deadline of the `select` that an action polls, if it polls one. -/
def polled (s : State) : Action → Option ℕ
  | .poll =>
    match s.task with
    | .selecting deadline => some deadline
    | .republishing => none
  | .resume =>
    match s.task with
    | .selecting _ => none
    | .republishing => some (s.clock + Duration.fromSecs autoIntervalS)
  | _ => none

/-- One action; `none` when the controller is elsewhere. -/
def step (s : State) : Action → Option State
  | .tick ticks => some { s with clock := s.clock + ticks }
  | .toggle => some (toggle s)
  | .poll => (polled s .poll).map fun deadline => pollSelect deadline s
  | .resume => (polled s .resume).map fun deadline => pollSelect deadline s

/-- The controller and the button, from boot. -/
def machine : Machine State Action := ⟨State.init,step⟩

/-- Whether the action makes the controller flip the mode by itself. -/
def autoFlips (s : State) (a : Action) : Prop :=
  ∃ deadline, polled s a = some deadline ∧ select (deadline ≤ s.clock) s.changed = some .first

/-- In the run no auto flip happens while the signal of a toggle is pending. -/
def TogglesKept (as : List Action) : Prop :=
  machine.Always (fun s a _ => autoFlips s a → s.changed = false) as

/-- No toggle is made between a step of the controller and a poll that finds the timer
of that step expired. -/
def Undisturbed (as : List Action) : Prop :=
  ∀ pre post s deadline, as = pre ++ .poll :: post → machine.run pre = some s →
    s.task = .selecting deadline → deadline ≤ s.clock → .toggle ∉ sinceController pre

/-- While the controller waits, the signal is pending exactly when there was a toggle
since it last ran. -/
theorem changed_iff {as : List Action} {s : State} (h : machine.run as = some s) :
    ∀ d, s.task = .selecting d → (s.changed = true ↔ .toggle ∈ sinceController as) := by
  refine Machine.run_induction (m := machine)
    (P := fun as s => ∀ d, s.task = .selecting d →
      (s.changed = true ↔ .toggle ∈ sinceController as)) ?_ ?_ h
  · intro d hd
    cases hd
  · intro as s a s' _ ih (hstep : step s a = some s') d hd
    rw [sinceController_concat]
    cases a with
    | tick ticks =>
      cases hstep
      simpa [Action.isController] using ih d hd
    | toggle =>
      cases hstep
      simp [Action.isController,toggle]
    | poll =>
      obtain ⟨deadline,_,rfl⟩ := Option.map_eq_some_iff.mp hstep
      simp [pollSelect_selecting hd,Action.isController]
    | resume =>
      obtain ⟨deadline,_,rfl⟩ := Option.map_eq_some_iff.mp hstep
      simp [pollSelect_selecting hd,Action.isController]

/-- Only a poll finds the timer expired; a timer just armed is not. -/
theorem autoFlips_iff {s : State} {a : Action} :
    autoFlips s a ↔ a = .poll ∧ ∃ deadline, s.task = .selecting deadline ∧ deadline ≤ s.clock := by
  have hpos := Duration.fromSecs_pos (show 0 < autoIntervalS by decide)
  simp only [autoFlips,select_eq_first_iff,decide_eq_true_eq]
  cases a with
  | poll =>
    cases htask : s.task with
    | selecting d => simp [polled,htask]
    | republishing => simp [polled,htask]
  | resume =>
    cases htask : s.task with
    | selecting d => simp [polled,htask]
    | republishing =>
      simp [polled,htask]
      omega
  | _ => simp [polled]

/-- Toggles are kept exactly in the runs in which none falls between a step of the
controller and the poll of its expired timer. -/
theorem togglesKept_iff (as : List Action) : TogglesKept as ↔ Undisturbed as := by
  constructor
  · intro h pre post s deadline has hrun htask hdue
    have hflips : autoFlips s .poll := autoFlips_iff.mpr ⟨rfl,deadline,htask,hdue⟩
    have hstep : step s .poll = some (pollSelect deadline s) := by
      simp only [step,polled,htask,Option.map_some]
    have hfalse := h pre .poll post s _ has hrun hstep hflips
    rw [← changed_iff hrun deadline htask,hfalse]
    exact Bool.false_ne_true
  · intro h pre a post s s' has hrun _ hflips
    obtain ⟨rfl,deadline,htask,hdue⟩ := autoFlips_iff.mp hflips
    have hno := h pre post s deadline has hrun htask hdue
    rw [← changed_iff hrun deadline htask] at hno
    exact Bool.eq_false_of_not_eq_true hno

end Runs

/-- The timer has expired when the button is released, and the controller runs only then. -/
def lateToggle : List Action := [.resume,.tick 300000000,.toggle,.poll]

/-- The toggle to the Randstad is undone at once, and its signal is still pending. -/
theorem not_togglesKept_lateToggle : letI := microTicks
    ¬ TogglesKept lateToggle ∧
      machine.run lateToggle =
        some ⟨300000000,MapMode.netherlands.toU8,true,.republishing⟩ := by
  let _ := microTicks
  refine ⟨fun h => ?_,by decide⟩
  have hkept := h [.resume,.tick 300000000,.toggle] .poll []
    ⟨300000000,MapMode.randstad.toU8,true,.selecting 300000000⟩ _ rfl (by decide) rfl
    ⟨300000000,rfl,by decide⟩
  cases hkept

end NsPixels.Controller
