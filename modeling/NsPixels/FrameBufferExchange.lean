import NsPixels.Lib.Machine
import NsPixels.Lib.Tokens

/-!
# The exchange of the framebuffers

Two framebuffers ping-pong between the renderer and the DMA driver through a pair of
signals. A signal holds one value and forgets an unread one when it is set again. Both
tasks run on the second core. The driver runs on an interrupt executor, so the renderer
does not run between two of its awaits; an action ends at an await, where the renderer
may be interrupted or where the hardware takes over.
-/

namespace NsPixels.FrameBufferExchange

open Tokens

/-- The two statically allocated framebuffers. -/
inductive Buffer
  | fb0
  | fb1
deriving DecidableEq, Repr

instance : Fintype Buffer := ⟨{.fb0,.fb1},by rintro (_ | _) <;> decide⟩

/-- Where `display_task` is within a frame. -/
inductive Renderer
  | erasing (fb : Buffer)
  | drawing (fb : Buffer)
  /-- the buffer is given away and another one awaited -/
  | waiting
deriving DecidableEq

def Renderer.buffer : Renderer → Option Buffer
  | .erasing fb => some fb
  | .drawing fb => some fb
  | .waiting => none

/-- Where `hub75_task` is. -/
inductive Dma
  /-- before the loop: the renderer's first buffer is awaited -/
  | starting (fb : Buffer)
  /-- at the head of the loop -/
  | polling (fb : Buffer)
  /-- `rx.signaled()` was true -/
  | exchanging (fb : Buffer)
  /-- the wait inside the loop found no buffer -/
  | blocked (fb : Buffer)
  /-- about to start a transfer -/
  | ready (fb : Buffer)
  | scanning (fb : Buffer)
deriving DecidableEq

def Dma.buffer : Dma → Buffer
  | .starting fb => fb
  | .polling fb => fb
  | .exchanging fb => fb
  | .blocked fb => fb
  | .ready fb => fb
  | .scanning fb => fb

/-- The task awaits a buffer. -/
def Dma.Waits : Dma → Prop
  | .starting _ => True
  | .blocked _ => True
  | _ => False

/-- The statics `TX` and `RX`, the two tasks and what the framebuffers show. -/
structure State (F : Type*) where
  memory : Buffer → F
  tx : Option Buffer
  rx : Option Buffer
  renderer : Renderer
  dma : Dma

inductive Action (F : Type*)
  | erase
  /-- some of the writes of `draw_trains` -/
  | draw (pixels : F → F)
  /-- the renderer gives its buffer away -/
  | signal
  /-- the renderer gets the next one -/
  | wake
  /-- the exchange before the loop -/
  | handOff
  /-- the test at the head of the loop -/
  | check
  | exchange
  /-- a blocked exchange goes on -/
  | unblock
  | render
  | transferred (ok : Bool)

section Tasks

variable {F : Type*}

/-- After `start`: both buffers are erased and `hub75_task` has the second one. -/
def State.init (blank : F) : State F where
  memory := fun _ => blank
  tx := none
  rx := none
  renderer := .erasing .fb0
  dma := .starting .fb1

/-- `hub75_task` takes `new` from `RX` and signals its own buffer to `TX`. -/
def State.swap (s : State F) (fb : Buffer) (dma : Dma) : State F :=
  { s with rx := none, tx := some fb, dma := dma }

variable (blank : F)

def step (s : State F) : Action F → Option (State F)
  | .erase =>
    match s.renderer with
    | .erasing fb =>
      some { s with memory := Function.update s.memory fb blank, renderer := .drawing fb }
    | _ => none
  | .draw pixels =>
    match s.renderer with
    | .drawing fb => some { s with memory := Function.update s.memory fb (pixels (s.memory fb)) }
    | _ => none
  | .signal =>
    match s.renderer with
    -- whatever the signal held would be lost
    | .drawing fb => some { s with rx := some fb, renderer := .waiting }
    | _ => none
  | .wake =>
    match s.renderer,s.tx with
    | .waiting,some new => some { s with tx := none, renderer := .erasing new }
    | _,_ => none
  | .handOff =>
    match s.dma,s.rx with
    | .starting fb,some new => some (s.swap fb (.polling new))
    | _,_ => none
  | .check =>
    match s.dma with
    | .polling fb => some { s with dma := if s.rx.isSome then .exchanging fb else .ready fb }
    | _ => none
  | .exchange =>
    match s.dma with
    | .exchanging fb =>
      match s.rx with
      | some new => some (s.swap fb (.ready new))
      | none => some { s with dma := .blocked fb }
    | _ => none
  | .unblock =>
    match s.dma,s.rx with
    | .blocked fb,some new => some (s.swap fb (.ready new))
    | _,_ => none
  | .render =>
    match s.dma with
    | .ready fb => some { s with dma := .scanning fb }
    | _ => none
  | .transferred _ =>
    match s.dma with
    -- a failed transfer continues the loop with the same buffer, as a complete one does
    | .scanning fb => some { s with dma := .polling fb }
    | _ => none

/-- The two tasks from the start of the second core. -/
def machine : Machine (State F) (Action F) := ⟨State.init blank,step blank⟩

variable {blank} {s s' : State F} {a : Action F}

/-! ### What each action does -/

theorem step_erase (h : step blank s .erase = some s') : ∃ fb, s.renderer = .erasing fb ∧
    s' = { s with memory := Function.update s.memory fb blank, renderer := .drawing fb } := by
  simp only [step] at h
  split at h
  · next fb hfb =>
    cases h
    exact ⟨fb,hfb,rfl⟩
  · cases h

theorem step_draw {pixels : F → F} (h : step blank s (.draw pixels) = some s') :
    ∃ fb, s.renderer = .drawing fb ∧
      s' = { s with memory := Function.update s.memory fb (pixels (s.memory fb)) } := by
  simp only [step] at h
  split at h
  · next fb hfb =>
    cases h
    exact ⟨fb,hfb,rfl⟩
  · cases h

theorem step_signal (h : step blank s .signal = some s') : ∃ fb, s.renderer = .drawing fb ∧
    s' = { s with rx := some fb, renderer := .waiting } := by
  simp only [step] at h
  split at h
  · next fb hfb =>
    cases h
    exact ⟨fb,hfb,rfl⟩
  · cases h

theorem step_wake (h : step blank s .wake = some s') : ∃ new, s.renderer = .waiting ∧
    s.tx = some new ∧ s' = { s with tx := none, renderer := .erasing new } := by
  simp only [step] at h
  split at h
  · next new hr hnew =>
    cases h
    exact ⟨new,hr,hnew,rfl⟩
  · cases h

theorem step_handOff (h : step blank s .handOff = some s') : ∃ fb new, s.dma = .starting fb ∧
    s.rx = some new ∧ s' = s.swap fb (.polling new) := by
  simp only [step] at h
  split at h
  · next fb new hfb hnew =>
    cases h
    exact ⟨fb,new,hfb,hnew,rfl⟩
  · cases h

theorem step_check (h : step blank s .check = some s') : ∃ fb, s.dma = .polling fb ∧
    s' = { s with dma := if s.rx.isSome then .exchanging fb else .ready fb } := by
  simp only [step] at h
  split at h
  · next fb hfb =>
    cases h
    exact ⟨fb,hfb,rfl⟩
  · cases h

theorem step_exchange (h : step blank s .exchange = some s') : ∃ fb, s.dma = .exchanging fb ∧
    ((∃ new, s.rx = some new ∧ s' = s.swap fb (.ready new)) ∨
      s.rx = none ∧ s' = { s with dma := .blocked fb }) := by
  simp only [step] at h
  split at h
  · next fb hfb =>
    split at h
    · next new hnew =>
      cases h
      exact ⟨fb,hfb,Or.inl ⟨new,hnew,rfl⟩⟩
    · next hnone =>
      cases h
      exact ⟨fb,hfb,Or.inr ⟨hnone,rfl⟩⟩
  · cases h

theorem step_unblock (h : step blank s .unblock = some s') : ∃ fb new, s.dma = .blocked fb ∧
    s.rx = some new ∧ s' = s.swap fb (.ready new) := by
  simp only [step] at h
  split at h
  · next fb new hfb hnew =>
    cases h
    exact ⟨fb,new,hfb,hnew,rfl⟩
  · cases h

theorem step_render (h : step blank s .render = some s') : ∃ fb, s.dma = .ready fb ∧
    s' = { s with dma := .scanning fb } := by
  simp only [step] at h
  split at h
  · next fb hfb =>
    cases h
    exact ⟨fb,hfb,rfl⟩
  · cases h

theorem step_transferred {ok : Bool} (h : step blank s (.transferred ok) = some s') :
    ∃ fb, s.dma = .scanning fb ∧ s' = { s with dma := .polling fb } := by
  simp only [step] at h
  split at h
  · next fb hfb =>
    cases h
    exact ⟨fb,hfb,rfl⟩
  · cases h

/-- The kinds of steps. -/
inductive Moves (s : State F) : State F → Prop
  /-- the renderer writes into the buffer in its hands -/
  | write (fb : Buffer) (shown : F) (hfb : s.renderer.buffer = some fb) :
      Moves s { s with memory := Function.update s.memory fb shown, renderer := .drawing fb }
  | give (fb : Buffer) (hfb : s.renderer = .drawing fb) :
      Moves s { s with rx := some fb, renderer := .waiting }
  | take (new : Buffer) (hr : s.renderer = .waiting) (hnew : s.tx = some new) :
      Moves s { s with tx := none, renderer := .erasing new }
  | swap (new : Buffer) (d : Dma) (hnew : s.rx = some new) (hd : d.buffer = new)
      (hexchanging : ∀ fb, d ≠ .exchanging fb) (hblocked : ∀ fb, d ≠ .blocked fb) :
      Moves s (s.swap s.dma.buffer d)
  /-- the driver goes on with the same buffer -/
  | drive (d : Dma) (hd : d.buffer = s.dma.buffer)
      (hexchanging : ∀ fb, d = .exchanging fb → s.rx.isSome)
      (hblocked : ∀ fb, d = .blocked fb → s.dma = .exchanging fb ∧ s.rx = none) :
      Moves s { s with dma := d }

theorem moves_of_step (h : step blank s a = some s') : Moves s s' := by
  cases a with
  | erase =>
    obtain ⟨fb,hfb,rfl⟩ := step_erase h
    exact .write fb blank (by rw [hfb]; rfl)
  | draw pixels =>
    obtain ⟨fb,hfb,rfl⟩ := step_draw h
    have hwrite := Moves.write fb (pixels (s.memory fb))
      (show s.renderer.buffer = some fb by rw [hfb]; rfl)
    rwa [← hfb] at hwrite
  | signal =>
    obtain ⟨fb,hfb,rfl⟩ := step_signal h
    exact .give fb hfb
  | wake =>
    obtain ⟨new,hr,hnew,rfl⟩ := step_wake h
    exact .take new hr hnew
  | handOff =>
    obtain ⟨fb,new,hfb,hnew,rfl⟩ := step_handOff h
    have hswap := Moves.swap new (.polling new) hnew rfl (by simp) (by simp)
    rwa [hfb] at hswap
  | check =>
    obtain ⟨fb,hfb,rfl⟩ := step_check h
    by_cases hrx : s.rx.isSome
    · rw [if_pos hrx]
      exact .drive (.exchanging fb) (by rw [hfb]; rfl) (fun _ _ => hrx) (by simp)
    · rw [if_neg hrx]
      exact .drive (.ready fb) (by rw [hfb]; rfl) (by simp) (by simp)
  | exchange =>
    obtain ⟨fb,hfb,⟨new,hnew,rfl⟩ | ⟨hnone,rfl⟩⟩ := step_exchange h
    · have hswap := Moves.swap new (.ready new) hnew rfl (by simp) (by simp)
      rwa [hfb] at hswap
    · refine .drive (.blocked fb) (by rw [hfb]; rfl) (by simp) ?_
      rintro fb' ⟨⟩
      exact ⟨hfb,hnone⟩
  | unblock =>
    obtain ⟨fb,new,hfb,hnew,rfl⟩ := step_unblock h
    have hswap := Moves.swap new (.ready new) hnew rfl (by simp) (by simp)
    rwa [hfb] at hswap
  | render =>
    obtain ⟨fb,hfb,rfl⟩ := step_render h
    exact .drive (.scanning fb) (by rw [hfb]; rfl) (by simp) (by simp)
  | transferred ok =>
    obtain ⟨fb,hfb,rfl⟩ := step_transferred h
    exact .drive (.polling fb) (by rw [hfb]; rfl) (by simp) (by simp)

/-! ### Conservation -/

/-- Where a framebuffer can be. -/
inductive Place
  | renderer
  | tx
  | dma
  | rx
deriving DecidableEq

/-- What lies where. -/
def State.slots (s : State F) : Place → Option Buffer
  | .renderer => s.renderer.buffer
  | .tx => s.tx
  | .dma => some s.dma.buffer
  | .rx => s.rx

/-- Beside the driver's own buffer only one place is occupied. -/
theorem slots_eq_none (h : Conserved s.slots) {p q : Place} (hp : (s.slots p).isSome)
    (hp' : p ≠ .dma) (hq' : q ≠ .dma) (hpq : p ≠ q) : s.slots q = none :=
  h.eq_none_of_card_two rfl .dma rfl hp hp' hq' hpq

theorem conserved_init : Conserved (State.init blank).slots := by
  intro fb
  cases fb with
  | fb0 =>
    refine ⟨.renderer,rfl,?_⟩
    rintro (_ | _ | _ | _) hp
    all_goals first
      | rfl
      | cases hp
  | fb1 =>
    refine ⟨.dma,rfl,?_⟩
    rintro (_ | _ | _ | _) hp
    all_goals first
      | rfl
      | cases hp

/-- Every step leaves the buffers where they are or moves them into empty places. -/
theorem Moves.conserved (hm : Moves s s') (h : Conserved s.slots) : Conserved s'.slots := by
  cases hm with
  | write fb shown hfb =>
    apply h.of_eq
    funext p
    cases p with
    | renderer => exact hfb.symm
    | _ => rfl
  | give fb hfb =>
    have hrx : s.slots .rx = none :=
      slots_eq_none h (p := .renderer) (by rw [State.slots,hfb]; rfl) (by simp) (by simp) (by simp)
    apply (h.move (p := .renderer) (q := .rx) (by simp) hrx).of_eq
    funext p
    cases p <;> simp [move_apply,State.slots,hfb,Renderer.buffer]
  | take new hr hnew =>
    have hnone : s.slots .renderer = none := by rw [State.slots,hr]; rfl
    apply (h.move (p := .tx) (q := .renderer) (by simp) hnone).of_eq
    funext p
    cases p <;> simp [move_apply,State.slots,hnew,Renderer.buffer]
  | swap new d hnew hd =>
    -- two moves, each into an empty place
    have htx : s.slots .tx = none :=
      slots_eq_none h (p := .rx) (by rw [State.slots,hnew]; rfl) (by simp) (by simp) (by simp)
    have hgive := h.move (p := .dma) (q := .tx) (by simp) htx
    have htake := hgive.move (p := .rx) (q := .dma) (by simp) (by simp [move_apply])
    apply htake.of_eq
    funext p
    cases p <;> simp [move_apply,State.slots,State.swap,hnew,hd]
  | drive d hd =>
    apply h.of_eq
    funext p
    cases p with
    | dma => exact congrArg some hd
    | _ => rfl

theorem conserved_run {as : List (Action F)} (h : (machine blank).run as = some s) :
    Conserved s.slots :=
  Machine.invariant (P := fun s => Conserved s.slots) conserved_init
    (fun _ _ _ hs ht => (moves_of_step ht).conserved hs) h

/-! ### The loop of the driver -/

/-- Inside the loop the driver only waits for a buffer that is there. -/
structure Signaled (s : State F) : Prop where
  exchanging : ∀ fb, s.dma = .exchanging fb → s.rx.isSome
  not_blocked : ∀ fb, s.dma ≠ .blocked fb

theorem Moves.signaled (hm : Moves s s') (h : Signaled s) : Signaled s' := by
  cases hm with
  | write fb shown hfb => exact ⟨h.exchanging,h.not_blocked⟩
  | give fb hfb => exact ⟨fun _ _ => rfl,h.not_blocked⟩
  | take new hr hnew => exact ⟨h.exchanging,h.not_blocked⟩
  | swap new d hnew hd hexchanging hblocked =>
    exact ⟨fun fb hfb => absurd hfb (hexchanging fb),hblocked⟩
  | drive d hd hexchanging hblocked =>
    refine ⟨hexchanging,fun fb hfb => ?_⟩
    -- the buffer that the test saw is still there
    obtain ⟨hbefore,hnone⟩ := hblocked fb hfb
    have hsome := h.exchanging fb hbefore
    rw [hnone] at hsome
    cases hsome

theorem signaled_run {as : List (Action F)} (h : (machine blank).run as = some s) : Signaled s :=
  Machine.invariant (P := fun s => Signaled s)
    ⟨by simp [machine,State.init],by simp [machine,State.init]⟩
    (fun _ _ _ hs ht => (moves_of_step ht).signaled hs) h

/-! ### Safety -/

/-- Only the renderer writes, and only into the buffer in its hands. -/
theorem Moves.memory_eq (hm : Moves s s') {fb : Buffer} (hfb : s.renderer.buffer ≠ some fb) :
    s'.memory fb = s.memory fb := by
  cases hm with
  | write fb' shown hfb' =>
    refine Function.update_of_ne ?_ _ _
    rintro rfl
    exact hfb hfb'
  | _ => rfl

variable (blank) in
/-- The exchange is safe in `s`. -/
structure PingPong (s : State F) : Prop where
  /-- each buffer is in exactly one place, and no place has two -/
  conserved : Conserved s.slots
  /-- the next step, whatever it is, leaves the buffer being scanned out as it is -/
  scan_kept : ∀ fb, s.dma = .scanning fb →
    ∀ a s', step blank s a = some s' → s'.memory fb = s.memory fb
  /-- the renderer signals into an empty `RX` -/
  rx_empty : ∀ s', step blank s .signal = some s' → s.rx = none
  /-- each exchange of the driver signals into an empty `TX` -/
  tx_empty : ∀ a s', a = .handOff ∨ a = .exchange ∨ a = .unblock →
    step blank s a = some s' → s.tx = none
  /-- the wait inside the loop never blocks -/
  not_blocked : ∀ fb, s.dma ≠ .blocked fb
  /-- the tasks do not wait for each other -/
  not_deadlocked : ¬ (s.renderer = .waiting ∧ s.dma.Waits ∧ s.tx = none ∧ s.rx = none)

theorem tx_eq_none (h : Conserved s.slots) (hrx : s.rx.isSome) : s.tx = none :=
  slots_eq_none h (p := .rx) (q := .tx) hrx (by simp) (by simp) (by simp)

/-- The buffer that the driver does not have is in one of the other places. -/
theorem not_all_empty (h : Conserved s.slots) :
    ¬ (s.renderer = .waiting ∧ s.tx = none ∧ s.rx = none) := by
  rintro ⟨hr,htx,hrx⟩
  obtain ⟨p,hp,hsome⟩ := h.exists_occupied_ne (by decide) .dma
  cases p with
  | renderer => simp [State.slots,hr,Renderer.buffer] at hsome
  | tx => simp [State.slots,htx] at hsome
  | dma => exact hp rfl
  | rx => simp [State.slots,hrx] at hsome

/-- The framebuffers ping-pong safely in every reachable state. -/
theorem pingPong_run {as : List (Action F)} (h : (machine blank).run as = some s) :
    PingPong blank s := by
  have hc := conserved_run h
  have hsig := signaled_run h
  refine ⟨hc,?_,?_,?_,hsig.not_blocked,fun hdead => not_all_empty hc ⟨hdead.1,hdead.2.2⟩⟩
  · intro fb hfb a s' hstep
    refine (moves_of_step hstep).memory_eq fun hr => ?_
    have hplace : Place.renderer = .dma :=
      hc.eq_of_eq_some (t := fb) hr (by rw [State.slots,hfb]; rfl)
    cases hplace
  · intro s' hstep
    obtain ⟨fb,hfb,_⟩ := step_signal hstep
    exact slots_eq_none hc (p := .renderer) (q := .rx) (by rw [State.slots,hfb]; rfl) (by simp)
      (by simp) (by simp)
  · rintro a s' (rfl | rfl | rfl) hstep
    · obtain ⟨_,_,_,hnew,_⟩ := step_handOff hstep
      exact tx_eq_none hc (by rw [hnew]; rfl)
    · obtain ⟨fb,hfb,_⟩ := step_exchange hstep
      exact tx_eq_none hc (hsig.exchanging fb hfb)
    · obtain ⟨fb,_,hfb,_⟩ := step_unblock hstep
      exact absurd hfb (hsig.not_blocked fb)

end Tasks

/-- The first exchange, a transfer that fails and the next frame. -/
def twoFrames : List (Action ℕ) :=
  [.erase,.draw (· + 5),.signal,.handOff,.check,.render,.wake,.erase,.draw (· + 7),.transferred false,
    .check,.render,.signal,.transferred true,.check,.exchange,.render,.wake]

theorem pingPong_twoFrames : ∃ s, (machine 0).run twoFrames = some s ∧
    s.dma = .scanning .fb1 ∧ s.memory .fb1 = 7 ∧ PingPong 0 s :=
  ⟨_,rfl,rfl,rfl,pingPong_run (show (machine 0).run twoFrames = some _ from rfl)⟩

end NsPixels.FrameBufferExchange
