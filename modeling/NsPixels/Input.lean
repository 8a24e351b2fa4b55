import NsPixels.DisplayConfig
import NsPixels.Lib.Machine
import NsPixels.Time

/-!
# The buttons

The input task debounces the two buttons and tells short from long presses. Pins, clock
and executor act in any order; a future that saw its edge or level stays ready.
-/

namespace NsPixels

/-- The duration of `ms` milliseconds, rounded up to ticks. -/
def Duration.fromMillis [TickRate] (ms : ℕ) : ℕ := (ms * TickRate.hz + 999) / 1000

namespace Input

/-- Milliseconds of `DEBOUNCE`. -/
def debounceMs : ℕ := 30

/-- Milliseconds of `LONG_PRESS`. -/
def longPressMs : ℕ := 800

inductive Pin
  | up
  | down
deriving DecidableEq, Repr

/-- Where the task is. -/
inductive Task
  /-- awaiting a falling edge, with the pins that have had one -/
  | listening (up down : Bool)
  | debouncing (pin : Pin) (deadline : ℕ)
  /-- UP is held; `high` when it has been released -/
  | holding (deadline : ℕ) (high : Bool)
  /-- awaiting the release after the action -/
  | releasing (pin : Pin) (high : Bool)
deriving DecidableEq, Repr

structure State where
  clock : ℕ
  low : Pin → Bool
  config : DisplayConfig
  task : Task

/-- What the task starts with: the configuration that was loaded, and the buttons held down. -/
structure Boot where
  config : DisplayConfig
  low : Pin → Bool

def State.init (boot : Boot) : State := ⟨0,boot.low,boot.config,.listening false false⟩

inductive Action
  | tick (ticks : ℕ)
  | fall (pin : Pin)
  | rise (pin : Pin)
  /-- the executor polls the task -/
  | poll
deriving DecidableEq, Repr

/-- What the task asks of the others. -/
inductive Output
  /-- a new configuration, to be saved -/
  | save (button : Button) (config : DisplayConfig)
  | toggleMode
deriving DecidableEq, Repr

/-- The button an output is for. -/
def Output.pin : Output → Pin
  | save .down _ => .down
  | _ => .up

def State.setLow (s : State) (pin : Pin) (low : Bool) : State :=
  { s with low := fun p => if p = pin then low else s.low p }

/-- A falling edge is seen by a task that listens for it. -/
def Task.fell (pin : Pin) : Task → Task
  | .listening up down =>
    match pin with
    | .up => .listening true down
    | .down => .listening up true
  | task => task

/-- A high level is seen by a task that waits for it. -/
def Task.rose (pin : Pin) : Task → Task
  | .holding deadline high => .holding deadline (high || pin = .up)
  | .releasing p high => .releasing p (high || pin = p)
  | task => task

/-- `update_config` and `request_save`. -/
def State.cycle (s : State) (button : Button) (task : Task) : State × List Output :=
  let cfg := button.cycle s.config
  ({ s with config := cfg, task := task },[.save button cfg])

section Steps

variable [TickRate]

def debounce : ℕ := Duration.fromMillis debounceMs

def longPress : ℕ := Duration.fromMillis longPressMs

/-- One poll. In a `select` the first future wins when both are ready. -/
def State.poll (s : State) : State × List Output :=
  match s.task with
  | .listening up down =>
    if up then ({ s with task := .debouncing .up (s.clock + debounce) },[])
    else if down then ({ s with task := .debouncing .down (s.clock + debounce) },[])
    else (s,[])
  | .debouncing pin deadline =>
    if s.clock < deadline then (s,[])
    else if s.low pin then
      match pin with
      | .up => ({ s with task := .holding (s.clock + longPress) false },[])
      | .down => s.cycle .down (.releasing .down false)
    else ({ s with task := .listening false false },[])
  | .holding deadline high =>
    if high then s.cycle .upShort (.listening false false)
    else if deadline ≤ s.clock then ({ s with task := .releasing .up false },[.toggleMode])
    else (s,[])
  | .releasing _ high =>
    if high then ({ s with task := .listening false false },[]) else (s,[])

/-- One action; an edge needs the other level before it. -/
def step (s : State) : Action → Option State
  | .tick ticks => some { s with clock := s.clock + ticks }
  | .fall pin => if s.low pin then none else some { s.setLow pin true with task := s.task.fell pin }
  | .rise pin => if s.low pin then some { s.setLow pin false with task := s.task.rose pin } else none
  | .poll => some s.poll.1

def emits (s : State) : Action → List Output
  | .poll => s.poll.2
  | _ => []

/-- The task and its surroundings, from boot. -/
def machine (boot : Boot) : Machine State Action := ⟨State.init boot,step⟩

/-- The outputs of a run. -/
def outputs (boot : Boot) (as : List Action) : List Output := (machine boot).trace emits as

end Steps

/-! ### Time and levels of a run -/

def Action.ticks : Action → ℕ
  | tick ticks => ticks
  | _ => 0

/-- The time that actions take. -/
def elapsed (as : List Action) : ℕ := (as.map Action.ticks).sum

theorem elapsed_append (as bs : List Action) : elapsed (as ++ bs) = elapsed as + elapsed bs := by
  rw [elapsed,List.map_append,List.sum_append]
  rfl

/-- The level of a pin after actions. -/
def lowAfter (boot : Boot) (pin : Pin) (as : List Action) : Bool :=
  as.foldl (fun low a => if a = .fall pin then true else if a = .rise pin then false else low)
    (boot.low pin)

section Runs

variable [TickRate]

theorem outputs_concat {boot : Boot} {as : List Action} {s : State}
    (h : (machine boot).run as = some s) (a : Action) :
    outputs boot (as ++ [a]) = outputs boot as ++ emits s a := Machine.trace_concat _ h

/-- A press of `pin` since the last output. -/
def Fell (boot : Boot) (as : List Action) (pin : Pin) : Prop :=
  ∃ before bounce, as = before ++ .fall pin :: bounce ∧ outputs boot as = outputs boot before

/-- The pin is low, long enough after a press since the last output. -/
def Settled (boot : Boot) (as : List Action) (pin : Pin) : Prop :=
  ∃ before bounce, as = before ++ .fall pin :: bounce ∧ outputs boot as = outputs boot before ∧
    debounce ≤ elapsed bounce ∧ lowAfter boot pin as = true

/-- UP was found low by a poll, with the actions `since` then and no output. -/
def Held (boot : Boot) (as since : List Action) : Prop :=
  ∃ pressed, as = pressed ++ .poll :: since ∧ outputs boot as = outputs boot pressed ∧
    Settled boot pressed .up

/-- What has to have happened for an output. -/
inductive Earned (boot : Boot) (as : List Action) : Output → Prop
  | short {since : List Action} {cfg : DisplayConfig} (held : Held boot as since)
      (released : .rise .up ∈ since) : Earned boot as (.save .upShort cfg)
  | long {since : List Action} (held : Held boot as since) (low : .rise .up ∉ since)
      (time : longPress ≤ elapsed since) : Earned boot as .toggleMode
  | down {cfg : DisplayConfig} (settled : Settled boot as .down) : Earned boot as (.save .down cfg)

/-! ### The invariant -/

/-- What the task knows of the run. -/
def Task.Knows (boot : Boot) (clock : ℕ) (as : List Action) : Task → Prop
  | .listening up down => (up = true → Fell boot as .up) ∧ (down = true → Fell boot as .down)
  | .debouncing pin deadline => ∃ before bounce, as = before ++ .fall pin :: bounce ∧
      outputs boot as = outputs boot before ∧ elapsed before + debounce ≤ deadline
  | .holding deadline high => ∃ since, Held boot as since ∧ (high = true ↔ .rise .up ∈ since) ∧
      clock + longPress = deadline + elapsed since
  | .releasing _ _ => True

structure Inv (boot : Boot) (as : List Action) (s : State) : Prop where
  clock : s.clock = elapsed as
  low : ∀ pin, s.low pin = lowAfter boot pin as
  task : s.task.Knows boot s.clock as

variable {boot : Boot} {as : List Action} {s s' : State} {a : Action} {pin : Pin}

omit [TickRate] in
theorem lowAfter_concat (pin : Pin) (as : List Action) (a : Action) : lowAfter boot pin (as ++ [a]) =
    if a = .fall pin then true else if a = .rise pin then false else lowAfter boot pin as := by
  rw [lowAfter,List.foldl_append]
  rfl

/-- An action without output is one more action since then. -/
theorem Fell.concat (h : Fell boot as pin) (hsilent : outputs boot (as ++ [a]) = outputs boot as) :
    Fell boot (as ++ [a]) pin := by
  obtain ⟨before,bounce,rfl,hout⟩ := h
  exact ⟨before,bounce ++ [a],by simp,hsilent.trans hout⟩

theorem Held.concat {since : List Action} (h : Held boot as since)
    (hsilent : outputs boot (as ++ [a]) = outputs boot as) : Held boot (as ++ [a]) (since ++ [a]) := by
  obtain ⟨pressed,rfl,hout,hsettled⟩ := h
  exact ⟨pressed,by simp,hsilent.trans hout,hsettled⟩

/-- An action that leaves the task alone keeps what it knows. -/
theorem Task.Knows.concat {task : Task} {clock : ℕ} (h : task.Knows boot clock as)
    (hsilent : outputs boot (as ++ [a]) = outputs boot as) (hrise : a ≠ .rise .up) :
    task.Knows boot (clock + a.ticks) (as ++ [a]) := by
  cases task with
  | listening up down =>
    exact ⟨fun hup => (h.1 hup).concat hsilent,fun hdown => (h.2 hdown).concat hsilent⟩
  | debouncing pin deadline =>
    obtain ⟨before,bounce,rfl,hout,hle⟩ := h
    exact ⟨before,bounce ++ [a],by simp,hsilent.trans hout,hle⟩
  | holding deadline high =>
    obtain ⟨since,hheld,hhigh,htime⟩ := h
    refine ⟨since ++ [a],hheld.concat hsilent,?_,?_⟩
    · rw [hhigh,List.mem_append,List.mem_singleton]
      exact (or_iff_left hrise.symm).symm
    · rw [elapsed_append,show elapsed [a] = a.ticks from Nat.add_zero _]
      omega
  | releasing pin high => trivial

theorem Task.Knows.fell {task : Task} {clock : ℕ} (h : task.Knows boot clock as) (pin : Pin)
    (hsilent : outputs boot (as ++ [.fall pin]) = outputs boot as) :
    (task.fell pin).Knows boot clock (as ++ [.fall pin]) := by
  have hkept : task.Knows boot clock (as ++ [.fall pin]) := h.concat hsilent (by simp)
  cases task with
  | listening up down =>
    have hfell : Fell boot (as ++ [.fall pin]) pin := ⟨as,[],rfl,hsilent⟩
    cases pin with
    | up => exact ⟨fun _ => hfell,hkept.2⟩
    | down => exact ⟨hkept.1,fun _ => hfell⟩
  | debouncing | holding | releasing => exact hkept

theorem Task.Knows.rose {task : Task} {clock : ℕ} (h : task.Knows boot clock as) (pin : Pin)
    (hsilent : outputs boot (as ++ [.rise pin]) = outputs boot as) :
    (task.rose pin).Knows boot clock (as ++ [.rise pin]) := by
  cases task with
  | listening up down =>
    exact ⟨fun hup => (h.1 hup).concat hsilent,fun hdown => (h.2 hdown).concat hsilent⟩
  | debouncing p deadline =>
    obtain ⟨before,bounce,rfl,hout,hle⟩ := h
    exact ⟨before,bounce ++ [.rise pin],by simp,hsilent.trans hout,hle⟩
  | holding deadline high =>
    obtain ⟨since,hheld,hhigh,htime⟩ := h
    refine ⟨since ++ [.rise pin],hheld.concat hsilent,?_,?_⟩
    · rw [Bool.or_eq_true,hhigh,List.mem_append,List.mem_singleton,decide_eq_true_eq,
        Action.rise.injEq,eq_comm (a := pin)]
    · rw [elapsed_append,show elapsed [Action.rise pin] = 0 from rfl]
      exact htime
  | releasing p high => trivial

/-! ### Polls -/

/-- What a poll with the result `r` is allowed to do. -/
structure Polled (boot : Boot) (as : List Action) (s : State) (r : State × List Output) : Prop where
  earned : ∀ o ∈ r.2, Earned boot as o
  clock : r.1.clock = s.clock
  low : r.1.low = s.low
  task : outputs boot (as ++ [.poll]) = outputs boot as ++ r.2 →
    r.1.task.Knows boot s.clock (as ++ [.poll])

/-- A poll without output. -/
theorem Polled.silent {task : Task} (h : outputs boot (as ++ [.poll]) = outputs boot as →
    task.Knows boot s.clock (as ++ [.poll])) : Polled boot as s ({ s with task := task },[]) :=
  ⟨fun o ho => (by cases ho),rfl,rfl,fun hout => h (hout.trans (List.append_nil _))⟩

/-- Nothing is ready yet. -/
theorem Polled.pending (h : Inv boot as s) : Polled boot as s (s,[]) :=
  show Polled boot as s ({ s with task := s.task },[]) from
    .silent fun hsilent => h.task.concat hsilent (by simp)

/-- A task that starts to listen has seen no edge. -/
theorem knows_listening (clock : ℕ) (as : List Action) :
    (Task.listening false false).Knows boot clock as :=
  ⟨fun hup => absurd hup Bool.false_ne_true,fun hdown => absurd hdown Bool.false_ne_true⟩

theorem Polled.debounce (hclock : s.clock = elapsed as) (h : Fell boot as pin) :
    Polled boot as s ({ s with task := .debouncing pin (s.clock + Input.debounce) },[]) := by
  refine .silent fun hsilent => ?_
  obtain ⟨before,bounce,rfl,hout⟩ := h
  refine ⟨before,bounce ++ [.poll],by simp,hsilent.trans hout,?_⟩
  rw [hclock,elapsed_append]
  omega

/-- Behind the debouncing a low pin is settled. -/
theorem settled_of_low (h : Inv boot as s) {deadline : ℕ} (htask : s.task = .debouncing pin deadline)
    (hdue : deadline ≤ s.clock) (hlow : s.low pin = true) : Settled boot as pin := by
  have hknows := h.task
  rw [htask] at hknows
  obtain ⟨before,bounce,rfl,hout,hle⟩ := hknows
  refine ⟨before,bounce,rfl,hout,?_,(h.low pin).symm.trans hlow⟩
  have hclock := h.clock
  rw [elapsed_append,elapsed,elapsed,List.map_cons,List.sum_cons] at hclock
  change s.clock = elapsed before + (0 + elapsed bounce) at hclock
  omega

theorem Polled.settled : Settled boot as pin → Polled boot as s
    (match pin with
    | .up => ({ s with task := .holding (s.clock + longPress) false },[])
    | .down => s.cycle .down (.releasing .down false)) := by
  intro h
  cases pin with
  | up => exact .silent fun hsilent => ⟨[],⟨as,rfl,hsilent,h⟩,by simp,rfl⟩
  | down =>
    refine ⟨fun o ho => ?_,rfl,rfl,fun _ => trivial⟩
    rw [List.mem_singleton.mp ho]
    exact .down h

theorem Polled.held {deadline : ℕ} {high : Bool} (h : Inv boot as s)
    (htask : s.task = .holding deadline high) : Polled boot as s
    (if high then s.cycle .upShort (.listening false false)
    else if deadline ≤ s.clock then ({ s with task := .releasing .up false },[.toggleMode])
    else (s,[])) := by
  have hknows := h.task
  rw [htask] at hknows
  obtain ⟨since,hheld,hhigh,htime⟩ := hknows
  cases high with
  | true =>
    refine ⟨fun o ho => ?_,rfl,rfl,fun _ => knows_listening _ _⟩
    rw [List.mem_singleton.mp ho]
    exact .short hheld (hhigh.mp rfl)
  | false =>
    rw [if_neg Bool.false_ne_true]
    split
    · next hdue =>
      refine ⟨fun o ho => ?_,rfl,rfl,fun _ => trivial⟩
      rw [List.mem_singleton.mp ho]
      exact .long hheld (fun hmem => Bool.false_ne_true (hhigh.mpr hmem)) (by omega)
    · exact .pending h

/-- Every poll. -/
theorem Inv.polled (h : Inv boot as s) : Polled boot as s s.poll := by
  rw [State.poll]
  cases htask : s.task with
  | listening up down =>
    have hknows := h.task
    rw [htask] at hknows
    dsimp only
    cases up with
    | true => exact .debounce h.clock (hknows.1 rfl)
    | false =>
      cases down with
      | true => exact .debounce h.clock (hknows.2 rfl)
      | false => exact .pending h
  | debouncing pin deadline =>
    dsimp only
    split
    · exact .pending h
    · next hdue =>
      split
      · next hlow => exact .settled (settled_of_low h htask (Nat.le_of_not_lt hdue) hlow)
      · exact .silent fun _ => knows_listening _ _
  | holding deadline high => exact .held h htask
  | releasing pin high =>
    cases high with
    | true => exact .silent fun _ => knows_listening _ _
    | false => exact .pending h

/-! ### Runs -/

theorem Inv.step (hrun : (machine boot).run as = some s) (h : Inv boot as s)
    (hstep : step s a = some s') : Inv boot (as ++ [a]) s' := by
  have hout := outputs_concat hrun a
  have helapsed : elapsed (as ++ [a]) = elapsed as + a.ticks := by
    rw [elapsed_append,show elapsed [a] = a.ticks from Nat.add_zero _]
  cases a with
  | tick ticks =>
    cases hstep
    refine ⟨by rw [helapsed,← h.clock]; rfl,fun pin => ?_,?_⟩
    · rw [lowAfter_concat]
      exact h.low pin
    · exact h.task.concat (hout.trans (List.append_nil _)) (by simp)
  | fall pin =>
    simp only [Input.step] at hstep
    split at hstep <;> cases hstep
    refine ⟨by rw [helapsed,← h.clock]; rfl,fun p => ?_,?_⟩
    · simp only [lowAfter_concat,State.setLow,Action.fall.injEq,eq_comm (a := pin),reduceCtorEq,
        if_false,h.low p]
    · exact h.task.fell pin (hout.trans (List.append_nil _))
  | rise pin =>
    simp only [Input.step] at hstep
    split at hstep <;> cases hstep
    refine ⟨by rw [helapsed,← h.clock]; rfl,fun p => ?_,?_⟩
    · simp only [lowAfter_concat,State.setLow,Action.rise.injEq,eq_comm (a := pin),reduceCtorEq,
        if_false,h.low p]
    · exact h.task.rose pin (hout.trans (List.append_nil _))
  | poll =>
    cases hstep
    have hpolled := h.polled
    refine ⟨by rw [helapsed,hpolled.clock,h.clock]; rfl,fun pin => ?_,?_⟩
    · rw [lowAfter_concat,hpolled.low]
      exact h.low pin
    · rw [hpolled.clock]
      exact hpolled.task hout

theorem inv_run (h : (machine boot).run as = some s) : Inv boot as s :=
  Machine.run_induction (P := Inv boot) ⟨rfl,fun _ => rfl,knows_listening _ _⟩
    (fun _ _ _ _ hrun hinv hstep => hinv.step hrun hstep) h

/-- Every output of a run has been earned by the actions before it. -/
theorem earned_run (h : (machine boot).run as = some s) {o : Output} (ho : o ∈ emits s a) :
    Earned boot as o := by
  cases a with
  | poll => exact (inv_run h).polled.earned o ho
  | _ => cases ho

/-! ### Every output its own press -/

theorem Earned.fell {o : Output} (h : Earned boot as o) : Fell boot as o.pin := by
  have hheld : ∀ {since}, Held boot as since → Fell boot as .up := by
    rintro since ⟨pressed,rfl,hout,before,bounce,rfl,hbefore,-⟩
    exact ⟨before,bounce ++ .poll :: since,by simp,hout.trans hbefore⟩
  cases h with
  | short held _ => exact hheld held
  | long held _ _ => exact hheld held
  | down settled =>
    obtain ⟨before,bounce,has,hout,-⟩ := settled
    exact ⟨before,bounce,has,hout⟩

theorem emits_cases (s : State) (a : Action) : emits s a = [] ∨ ∃ o, emits s a = [o] := by
  cases a with
  | poll =>
    rw [emits,State.poll]
    split
    · split
      · exact .inl rfl
      · split <;> exact .inl rfl
    · split
      · exact .inl rfl
      · split
        · split
          · exact .inl rfl
          · exact .inr ⟨_,rfl⟩
        · exact .inl rfl
    · split
      · exact .inr ⟨_,rfl⟩
      · split
        · exact .inr ⟨_,rfl⟩
        · exact .inl rfl
    · split <;> exact .inl rfl
  | _ => exact .inl rfl

/-- No press has two outputs. -/
theorem countP_outputs_le (h : (machine boot).run as = some s) (pin : Pin) :
    (outputs boot as).countP (fun o => o.pin = pin) ≤ as.count (.fall pin) := by
  induction hn : as.length using Nat.strongRecOn generalizing as s with
  | ind n ih =>
    subst hn
    obtain rfl | ⟨as',a,rfl⟩ := List.eq_nil_or_concat as
    · exact Nat.le_refl 0
    rw [List.concat_eq_append] at h ih ⊢
    obtain ⟨t,hrun,-⟩ := Machine.run_concat_eq_some_iff.mp h
    have hlen : as'.length < (as' ++ [a]).length := by simp
    have hsofar := ih as'.length hlen hrun rfl
    rw [outputs_concat hrun,List.count_append]
    rcases emits_cases t a with hnone | ⟨o,ho⟩
    · rw [hnone,List.append_nil]
      exact hsofar.trans (Nat.le_add_right _ _)
    rw [ho,List.countP_append,List.countP_singleton]
    by_cases hpin : o.pin = pin
    · -- the press of this output comes after everything that was counted before
      obtain ⟨before,bounce,has,hout⟩ := (earned_run hrun (ho ▸ List.mem_singleton_self o)).fell
      obtain ⟨t',hrun'⟩ : ∃ t', (machine boot).run before = some t' := by
        rw [Machine.run,has,Machine.runFrom_append,Option.bind_eq_some_iff] at hrun
        obtain ⟨t',hrun',-⟩ := hrun
        exact ⟨t',hrun'⟩
      have hbefore := ih before.length (by rw [has]; simp) hrun' rfl
      rw [hout,if_pos (decide_eq_true hpin),has,hpin,List.count_append,List.count_cons_self]
      omega
    · rw [if_neg (by simpa using hpin)]
      omega

/-! ### The configuration -/

/-- What an output makes of the configuration. -/
def Output.applied (cfg : DisplayConfig) : Output → DisplayConfig
  | save button _ => button.cycle cfg
  | toggleMode => cfg

/-- Every save carries the configuration it makes. -/
def Saves (cfg : DisplayConfig) : List Output → Prop
  | [] => True
  | .save button cfg' :: os => cfg' = button.cycle cfg ∧ Saves cfg' os
  | .toggleMode :: os => Saves cfg os

omit [TickRate] in
theorem saves_append {cfg : DisplayConfig} {os os' : List Output} :
    Saves cfg (os ++ os') ↔ Saves cfg os ∧ Saves (os.foldl Output.applied cfg) os' := by
  induction os generalizing cfg with
  | nil => exact ⟨fun h => ⟨trivial,h⟩,And.right⟩
  | cons o os ih =>
    cases o with
    | save button cfg' =>
      rw [List.cons_append,Saves,Saves,ih,List.foldl_cons,Output.applied,and_assoc]
      refine and_congr_right fun h => ?_
      rw [h]
    | toggleMode => exact ih

/-- A step changes the configuration as its outputs say. -/
theorem step_config (h : step s a = some s') :
    s'.config = (emits s a).foldl Output.applied s.config ∧ Saves s.config (emits s a) := by
  cases a with
  | tick ticks =>
    cases h
    exact ⟨rfl,trivial⟩
  | fall pin | rise pin =>
    simp only [step] at h
    split at h <;> cases h
    exact ⟨rfl,trivial⟩
  | poll =>
    cases h
    rw [emits,State.poll]
    split
    · split
      · exact ⟨rfl,trivial⟩
      · split <;> exact ⟨rfl,trivial⟩
    · split
      · exact ⟨rfl,trivial⟩
      · split
        · split <;> exact ⟨rfl,by trivial⟩
        · exact ⟨rfl,trivial⟩
    · split
      · exact ⟨rfl,rfl,trivial⟩
      · split <;> exact ⟨rfl,trivial⟩
    · split <;> exact ⟨rfl,trivial⟩

theorem config_run (h : (machine boot).run as = some s) :
    s.config = (outputs boot as).foldl Output.applied boot.config ∧
      Saves boot.config (outputs boot as) := by
  refine Machine.run_induction (m := machine boot)
    (P := fun as s => s.config = (outputs boot as).foldl Output.applied boot.config ∧
      Saves boot.config (outputs boot as)) ⟨rfl,trivial⟩ ?_ h
  rintro as s a s' hrun ⟨hconfig,hsaves⟩ hstep
  obtain ⟨hconfig',hsaves'⟩ := step_config hstep
  rw [outputs_concat hrun,List.foldl_append,saves_append,← hconfig]
  exact ⟨hconfig',hsaves,hsaves'⟩

/-- The outputs of a run against its presses. -/
structure Answers (boot : Boot) (as : List Action) (s : State) : Prop where
  earned : ∀ pre a post t o, as = pre ++ a :: post → (machine boot).run pre = some t → o ∈ emits t a →
    Earned boot pre o
  distinct : ∀ pin, (outputs boot as).countP (fun o => o.pin = pin) ≤ as.count (.fall pin)
  config : s.config = (outputs boot as).foldl Output.applied boot.config
  saves : Saves boot.config (outputs boot as)

/-- In every run an output comes only from a press that was found low after the debouncing,
with UP released since then for a short press and held all the time for a long one; no
press has two; and the configuration is what the outputs make of the one at boot, each
saving what it made. -/
theorem answers_run (h : (machine boot).run as = some s) : Answers boot as s :=
  ⟨fun _ _ _ _ _ _ hpre ho => earned_run hpre ho,countP_outputs_le h,(config_run h).1,
    (config_run h).2⟩

/-! ### Presses that are polled in time -/

/-- A button that is pressed after a pause and held for some time. -/
structure Press where
  pause : ℕ
  pin : Pin
  held : ℕ

/-- What happens in a press, with a poll whenever something is ready. -/
def Press.actions (p : Press) : List Action :=
  .tick p.pause :: .fall p.pin :: .poll ::
    if p.held < debounce then [.tick p.held,.rise p.pin,.tick (debounce - p.held),.poll]
    else if p.pin = .up ∧ debounce + longPress ≤ p.held then
      [.tick debounce,.poll,.tick longPress,.poll,.tick (p.held - debounce - longPress),.rise .up,.poll]
    else [.tick debounce,.poll,.tick (p.held - debounce),.rise p.pin,.poll]

/-- What a press asks for: nothing if it does not outlast the debouncing. -/
def Press.output (cfg : DisplayConfig) (p : Press) : List Output :=
  if p.held < debounce then []
  else
    match p.pin with
    | .down => [.save .down (Button.down.cycle cfg)]
    | .up =>
      if debounce + longPress ≤ p.held then [.toggleMode]
      else [.save .upShort (Button.upShort.cycle cfg)]

def Press.outputs (cfg : DisplayConfig) : List Press → List Output
  | [] => []
  | p :: ps => p.output cfg ++ Press.outputs ((p.output cfg).foldl Output.applied cfg) ps

/-- Both buttons are released and the task listens. -/
structure Idle (cfg : DisplayConfig) (s : State) : Prop where
  low : s.low = fun _ => false
  config : s.config = cfg
  task : s.task = .listening false false

variable {cfg : DisplayConfig} {es : List Output} {t : State} {pin : Pin}

theorem leads_tick {ticks : ℕ}
    (h : (machine boot).Leads emits { s with clock := s.clock + ticks } as es s') :
    (machine boot).Leads emits s (.tick ticks :: as) es s' := Machine.Leads.cons rfl h

theorem leads_fall (hlow : s.low pin = false)
    (h : (machine boot).Leads emits { s.setLow pin true with task := s.task.fell pin } as es s') :
    (machine boot).Leads emits s (.fall pin :: as) es s' :=
  Machine.Leads.cons (show step s (.fall pin) = _ by rw [step,hlow]; rfl) h

/-- The release of the only button that is low. -/
theorem leads_rise (hlow : s.low = fun p => decide (p = pin))
    (h : (machine boot).Leads emits { s with low := fun _ => false, task := s.task.rose pin } as
      es s') :
    (machine boot).Leads emits s (.rise pin :: as) es s' := by
  have hreleased : (s.setLow pin false).low = fun _ => false := by
    funext p
    rw [State.setLow,hlow]
    by_cases hp : p = pin
    · exact if_pos hp
    · exact (if_neg hp).trans (decide_eq_false hp)
  refine Machine.Leads.cons (t := { s with low := fun _ => false, task := s.task.rose pin })
    (show step s (.rise pin) = _ from ?_) h
  rw [step,hlow,if_pos (decide_eq_true rfl),← hreleased]
  rfl

theorem leads_poll {o : List Output} (hpoll : s.poll = (t,o))
    (h : (machine boot).Leads emits t as es s') :
    (machine boot).Leads emits s (.poll :: as) (o ++ es) s' := by
  have hstep : (machine boot).step s .poll = some t :=
    congrArg (fun r : State × List Output => some r.1) hpoll
  have hcons := Machine.Leads.cons hstep h
  rwa [emits,hpoll] at hcons

/-- A button that goes down is debounced. -/
theorem leads_debouncing (h : Idle cfg s) {pause : ℕ}
    (hrest : (machine boot).Leads emits ⟨s.clock + pause,fun p => decide (p = pin),cfg,
      .debouncing pin (s.clock + pause + debounce)⟩ as es s') :
    (machine boot).Leads emits s (.tick pause :: .fall pin :: .poll :: as) es s' := by
  obtain ⟨clock,low,config,task⟩ := s
  obtain ⟨rfl,rfl,rfl⟩ := h
  have hlow : (fun p => if p = pin then true else false) = fun p => decide (p = pin) := by
    funext p
    by_cases hp : p = pin
    · rw [if_pos hp,decide_eq_true hp]
    · rw [if_neg hp,decide_eq_false hp]
  refine leads_tick (leads_fall rfl (leads_poll (o := []) ?_ hrest))
  rw [← hlow]
  cases pin <;> rfl

/-- A release within the debouncing. -/
theorem leads_bounced {clock deadline held rest : ℕ} (htime : deadline ≤ clock + held + rest) :
    (machine boot).Leads emits ⟨clock,fun p => decide (p = pin),cfg,.debouncing pin deadline⟩
      [.tick held,.rise pin,.tick rest,.poll] []
      ⟨clock + held + rest,fun _ => false,cfg,.listening false false⟩ := by
  have hpoll : State.poll ⟨clock + held + rest,fun _ => false,cfg,.debouncing pin deadline⟩ =
      (⟨clock + held + rest,fun _ => false,cfg,.listening false false⟩,[]) :=
    if_neg (Nat.not_lt.mpr htime)
  exact leads_tick (leads_rise rfl (leads_tick (leads_poll hpoll (.nil _))))

/-- DOWN is still low after the debouncing. -/
theorem leads_down {clock deadline bounce held : ℕ} (htime : deadline ≤ clock + bounce) :
    (machine boot).Leads emits ⟨clock,fun p => decide (p = .down),cfg,.debouncing .down deadline⟩
      [.tick bounce,.poll,.tick held,.rise .down,.poll] [.save .down (Button.down.cycle cfg)]
      ⟨clock + bounce + held,fun _ => false,Button.down.cycle cfg,.listening false false⟩ := by
  have hsettled : State.poll
      ⟨clock + bounce,fun p => decide (p = .down),cfg,.debouncing .down deadline⟩ =
        (⟨clock + bounce,fun p => decide (p = .down),Button.down.cycle cfg,.releasing .down false⟩,
          [.save .down (Button.down.cycle cfg)]) :=
    if_neg (Nat.not_lt.mpr htime)
  exact leads_tick (leads_poll hsettled (leads_tick (leads_rise rfl
    (leads_poll (o := []) rfl (.nil _)))))

/-- UP is still low after the debouncing. -/
theorem leads_up {clock deadline bounce : ℕ} (htime : deadline ≤ clock + bounce)
    (hrest : (machine boot).Leads emits ⟨clock + bounce,fun p => decide (p = .up),cfg,
      .holding (clock + bounce + longPress) false⟩ as es s') :
    (machine boot).Leads emits ⟨clock,fun p => decide (p = .up),cfg,.debouncing .up deadline⟩
      (.tick bounce :: .poll :: as) es s' := by
  have hsettled : State.poll
      ⟨clock + bounce,fun p => decide (p = .up),cfg,.debouncing .up deadline⟩ =
        (⟨clock + bounce,fun p => decide (p = .up),cfg,.holding (clock + bounce + longPress) false⟩,
          []) :=
    if_neg (Nat.not_lt.mpr htime)
  exact leads_tick (leads_poll hsettled hrest)

variable (boot) in
/-- A press is answered by its kind, and the task listens again. -/
theorem Idle.press (h : Idle cfg s) (p : Press) :
    ∃ s', (machine boot).Leads emits s p.actions (p.output cfg) s' ∧
      Idle ((p.output cfg).foldl Output.applied cfg) s' := by
  obtain ⟨pause,pin,held⟩ := p
  rw [Press.actions,Press.output]
  dsimp only
  by_cases hshort : held < debounce
  · rw [if_pos hshort,if_pos hshort]
    exact ⟨_,leads_debouncing h (leads_bounced (by omega)),rfl,rfl,rfl⟩
  rw [if_neg hshort,if_neg hshort]
  cases pin with
  | down =>
    rw [if_neg (by simp)]
    exact ⟨_,leads_debouncing h (leads_down le_rfl),rfl,rfl,rfl⟩
  | up =>
    by_cases hlong : debounce + longPress ≤ held
    · rw [if_pos ⟨rfl,hlong⟩]
      dsimp only
      rw [if_pos hlong]
      -- the threshold passes before the release
      have hpassed : State.poll ⟨s.clock + pause + debounce + longPress,fun p => decide (p = .up),cfg,
          .holding (s.clock + pause + debounce + longPress) false⟩ =
            (⟨s.clock + pause + debounce + longPress,fun p => decide (p = .up),cfg,
              .releasing .up false⟩,[.toggleMode]) :=
        if_pos le_rfl
      exact ⟨_,leads_debouncing h (leads_up le_rfl (leads_tick (leads_poll hpassed (leads_tick
        (leads_rise rfl (leads_poll (o := []) rfl (.nil _))))))),rfl,rfl,rfl⟩
    · rw [if_neg (fun hup => hlong hup.2)]
      dsimp only
      rw [if_neg hlong]
      exact ⟨_,leads_debouncing h (leads_up le_rfl (leads_tick (leads_rise rfl (leads_poll
        (o := [.save .upShort (Button.upShort.cycle cfg)]) rfl (.nil _))))),rfl,rfl,rfl⟩

variable (boot) in
theorem Idle.presses (h : Idle cfg s) (ps : List Press) :
    ∃ s', (machine boot).Leads emits s (ps.flatMap Press.actions) (Press.outputs cfg ps) s' := by
  induction ps generalizing s cfg with
  | nil => exact ⟨s,.nil _⟩
  | cons p ps ih =>
    obtain ⟨t,hpress,ht⟩ := h.press boot p
    obtain ⟨s',hpresses⟩ := ih ht
    rw [List.flatMap_cons]
    exact ⟨s',hpress.append hpresses⟩

/-- Presses that are polled in time are answered one by one: each that outlasts the debouncing
by one output, told by the button and by how long it was held. -/
theorem presses_run (hlow : boot.low = fun _ => false) (ps : List Press) :
    outputs boot (ps.flatMap Press.actions) = Press.outputs boot.config ps ∧
      ∃ s, (machine boot).run (ps.flatMap Press.actions) = some s := by
  obtain ⟨s,hpresses⟩ := Idle.presses boot (s := State.init boot) ⟨hlow,rfl,rfl⟩ ps
  exact ⟨hpresses.trace,s,hpresses.run⟩

end Runs

/-- A press that bounces only, a short and a long one of UP, and one of DOWN. -/
theorem presses_run_four : letI := microTicks
    outputs ⟨⟨.globalPulse,.byService⟩,fun _ => false⟩
        ([⟨0,.up,29999⟩,⟨500,.up,30000⟩,⟨7,.up,830000⟩,⟨0,.down,40000⟩].flatMap Press.actions) =
      [.save .upShort ⟨.perCluster,.byService⟩,.toggleMode,.save .down ⟨.perCluster,.byType⟩] := by
  let _ := microTicks
  have hrun := presses_run (show Boot.low ⟨⟨.globalPulse,.byService⟩,fun _ => false⟩ = _ from rfl)
    [⟨0,.up,29999⟩,⟨500,.up,30000⟩,⟨7,.up,830000⟩,⟨0,.down,40000⟩]
  exact hrun.1.trans (by decide +kernel)

/-- UP bounces and is pressed shortly, then DOWN is pressed. -/
def bothPressed : List Action :=
  [.fall .up,.poll,.tick 5000,.rise .up,.fall .up,.tick 25000,.poll,.tick 100000,.rise .up,.poll,
    .fall .down,.poll,.tick 30000,.poll,.rise .down,.poll]

/-- Booted with the configuration that was stored, and with DOWN held. -/
def storedBoot : Boot := ⟨⟨.globalPulse,.byService⟩,fun pin => pin = .down⟩

theorem answers_run_both : letI := microTicks
    ∃ s, (machine storedBoot).run (.rise .down :: bothPressed) = some s ∧
      outputs storedBoot (.rise .down :: bothPressed) = [.save .upShort ⟨.perCluster,.byService⟩,
        .save .down ⟨.perCluster,.byType⟩] ∧ Answers storedBoot (.rise .down :: bothPressed) s := by
  let _ := microTicks
  have hsome : ((machine storedBoot).run (.rise .down :: bothPressed)).isSome = true := by
    decide +kernel
  obtain ⟨s,hs⟩ := Option.isSome_iff_exists.mp hsome
  exact ⟨s,hs,by decide +kernel,answers_run hs⟩

end Input

end NsPixels
