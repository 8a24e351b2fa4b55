import NsPixels.Lib.Machine
import NsPixels.Lib.Tokens
import NsPixels.Display
import NsPixels.Registry.Trace

/-!
# The circulation of the snapshot buffers

Two buffers pass between the display task and three producers through a pair of
signals. A signal holds one value and forgets an unread one when it is set again.
The machine runs the four tasks together with whatever changes the registry and
the map mode; an action ends where a task awaits or where the other core may run.
-/

namespace NsPixels.ClusterExchange

open FixedCap Tokens

/-- The two statically allocated buffers. -/
inductive Buffer
  | clusters0
  | clusters1
deriving DecidableEq, Repr

instance : Fintype Buffer := ⟨{.clusters0,.clusters1},by rintro (_ | _) <;> decide⟩

/-- The tasks that rebuild snapshots. -/
inductive Producer
  | feed
  | nsApi
  | mapMode
deriving DecidableEq, Repr

/-- What a producer has in its hands. -/
inductive Hand
  | empty
  /-- a free buffer, awaiting the registry lock -/
  | claimed (b : Buffer)
  /-- a rebuilt buffer, to be published -/
  | rebuilt (b : Buffer)
deriving DecidableEq

def Hand.buffer : Hand → Option Buffer
  | .empty => none
  | .claimed b => some b
  | .rebuilt b => some b

@[simp] theorem Hand.buffer_empty : Hand.empty.buffer = none := rfl

@[simp] theorem Hand.buffer_claimed (b : Buffer) : (Hand.claimed b).buffer = some b := rfl

@[simp] theorem Hand.buffer_rebuilt (b : Buffer) : (Hand.rebuilt b).buffer = some b := rfl

theorem Hand.buffer_update (hand : Producer → Hand) (p q : Producer) (v : Hand) :
    (Function.update hand p v q).buffer = if q = p then v.buffer else (hand q).buffer := by
  rw [Function.update_apply]
  split <;> rfl

/-- Where the display task is within a frame. -/
inductive Stage
  | polling
  /-- the buffers are swapped and `old` is to be recycled -/
  | releasing (old : Buffer)
  | drawing
deriving DecidableEq

def Stage.buffer : Stage → Option Buffer
  | .releasing old => some old
  | _ => none

/-- `time` and `builtAt` are for the statements only: the number of actions so far and
the one that last rebuilt each buffer. -/
structure State where
  registry : Registry
  mode : UInt8
  memory : Buffer → ClusterVec
  free : Option Buffer
  fresh : Option Buffer
  hand : Producer → Hand
  clusters : Buffer
  direction : Direction
  stage : Stage
  time : ℕ
  builtAt : Buffer → ℕ

def State.init : State where
  registry := Registry.new
  mode := MapMode.netherlands.toU8
  memory := fun _ => Vec.empty
  free := some .clusters1
  fresh := none
  hand := fun _ => .empty
  clusters := .clusters0
  direction := default
  stage := .polling
  time := 0
  builtAt := fun _ => 0

inductive Action
  | update (e : Event)
  | setMode (mode : MapMode)
  | claim (p : Producer)
  | rebuild (p : Producer)
  | publish (p : Producer)
  | poll
  | release
  | draw (direction : Direction)

section Tasks

variable [TickRate] (srt : UnstableSort)

/-- What an action does, the counting of actions apart. -/
def act (s : State) : Action → Option State
  | .update e => some { s with registry := s.registry.apply e }
  | .setMode mode => some { s with mode := mode.toU8 }
  | .claim p =>
    match s.hand p with
    | .empty =>
      match s.free with
      | some b => some { s with free := none, hand := Function.update s.hand p (.claimed b) }
      -- no free buffer: this round is skipped
      | none => some s
    | _ => none
  | .rebuild p =>
    match s.hand p with
    | .claimed b =>
      (s.registry.rebuildClustersInto srt (s.memory b) (MapMode.current s.mode)).map fun snap =>
        { s with
          memory := Function.update s.memory b snap
          hand := Function.update s.hand p (.rebuilt b)
          builtAt := Function.update s.builtAt b s.time }
    | _ => none
  | .publish p =>
    match s.hand p with
    -- whatever the signal held would be lost
    | .rebuilt b => some { s with fresh := some b, hand := Function.update s.hand p .empty }
    | _ => none
  | .poll =>
    match s.stage with
    | .polling =>
      match s.fresh with
      | some new =>
        some { s with
          fresh := none
          clusters := new
          stage := .releasing s.clusters
          direction := default }
      | none => some { s with stage := .drawing }
    | _ => none
  | .release =>
    match s.stage with
    -- as would a buffer that is still free
    | .releasing old => some { s with free := some old, stage := .drawing }
    | _ => none
  | .draw direction =>
    match s.stage with
    | .drawing =>
      some { s with
        memory := Function.update s.memory s.clusters
          (rotate (s.memory s.clusters) s.direction direction)
        direction := direction
        stage := .polling }
    | _ => none

def step (s : State) (a : Action) : Option State :=
  (act srt s a).map fun s' => { s' with time := s.time + 1 }

/-- The tasks from the start of the second core. -/
def machine : Machine State Action := ⟨State.init,step srt⟩

variable {srt} {s s' : State} {a : Action}

/-! ### What each action does -/

theorem act_claim {p : Producer} (h : act srt s (.claim p) = some s') :
    s.hand p = .empty ∧ ((s.free = none ∧ s' = s) ∨ ∃ b, s.free = some b ∧
      s' = { s with free := none, hand := Function.update s.hand p (.claimed b) }) := by
  simp only [act] at h
  split at h
  · next hp =>
    split at h
    · next b hb =>
      cases h
      exact ⟨hp,Or.inr ⟨b,hb,rfl⟩⟩
    · next hb =>
      cases h
      exact ⟨hp,Or.inl ⟨hb,rfl⟩⟩
  · cases h

theorem act_rebuild {p : Producer} (h : act srt s (.rebuild p) = some s') :
    ∃ b snap, s.hand p = .claimed b ∧
      s.registry.rebuildClustersInto srt (s.memory b) (MapMode.current s.mode) = some snap ∧
      s' = { s with
        memory := Function.update s.memory b snap
        hand := Function.update s.hand p (.rebuilt b)
        builtAt := Function.update s.builtAt b s.time } := by
  simp only [act] at h
  split at h
  · next b hb =>
    obtain ⟨snap,hsnap,rfl⟩ := Option.map_eq_some_iff.mp h
    exact ⟨b,snap,hb,hsnap,rfl⟩
  · cases h

theorem act_publish {p : Producer} (h : act srt s (.publish p) = some s') :
    ∃ b, s.hand p = .rebuilt b ∧
      s' = { s with fresh := some b, hand := Function.update s.hand p .empty } := by
  simp only [act] at h
  split at h
  · next b hb =>
    cases h
    exact ⟨b,hb,rfl⟩
  · cases h

theorem act_poll (h : act srt s .poll = some s') :
    s.stage = .polling ∧ ((s.fresh = none ∧ s' = { s with stage := .drawing }) ∨
      ∃ new, s.fresh = some new ∧
        s' = { s with
          fresh := none
          clusters := new
          stage := .releasing s.clusters
          direction := default }) := by
  simp only [act] at h
  split at h
  · next hp =>
    split at h
    · next new hnew =>
      cases h
      exact ⟨hp,Or.inr ⟨new,hnew,rfl⟩⟩
    · next hnew =>
      cases h
      exact ⟨hp,Or.inl ⟨hnew,rfl⟩⟩
  · cases h

theorem act_release (h : act srt s .release = some s') :
    ∃ old, s.stage = .releasing old ∧ s' = { s with free := some old, stage := .drawing } := by
  simp only [act] at h
  split at h
  · next old hold =>
    cases h
    exact ⟨old,hold,rfl⟩
  · cases h

theorem act_draw {direction : Direction} (h : act srt s (.draw direction) = some s') :
    s.stage = .drawing ∧ s' = { s with
      memory := Function.update s.memory s.clusters
        (rotate (s.memory s.clusters) s.direction direction)
      direction := direction
      stage := .polling } := by
  simp only [act] at h
  split at h
  · next hs =>
    cases h
    exact ⟨hs,rfl⟩
  · cases h

/-! ### Conservation -/

/-- Where a buffer can be. -/
inductive Place
  | held
  | swapped
  | free
  | fresh
  | hand (p : Producer)
deriving DecidableEq

/-- What lies where. -/
def State.slots (s : State) : Place → Option Buffer
  | .held => some s.clusters
  | .swapped => s.stage.buffer
  | .free => s.free
  | .fresh => s.fresh
  | .hand p => (s.hand p).buffer

omit [TickRate] in
/-- Beside the display's own buffer only one place is occupied. -/
theorem place_unique (h : Conserved s.slots) {p q : Place} (hp : (s.slots p).isSome)
    (hq : (s.slots q).isSome) (hp' : p ≠ .held) (hq' : q ≠ .held) : p = q :=
  h.eq_of_card_two rfl .held rfl hp hq hp' hq'

omit [TickRate] in
theorem slots_eq_none (h : Conserved s.slots) {p q : Place} (hp : (s.slots p).isSome)
    (hp' : p ≠ .held) (hq' : q ≠ .held) (hpq : p ≠ q) : s.slots q = none :=
  h.eq_none_of_card_two rfl .held rfl hp hp' hq' hpq

omit [TickRate] in
theorem conserved_init : Conserved State.init.slots := by
  intro b
  cases b with
  | clusters0 =>
    refine ⟨.held,rfl,?_⟩
    rintro (_ | _ | _ | _ | p) hp
    all_goals first
      | rfl
      | cases hp
  | clusters1 =>
    refine ⟨.free,rfl,?_⟩
    rintro (_ | _ | _ | _ | p) hp
    all_goals first
      | rfl
      | cases hp

omit [TickRate] in
theorem slots_hand_isSome {p : Producer} (hp : s.hand p ≠ .empty) :
    (s.slots (.hand p)).isSome := by
  rw [State.slots]
  cases h : s.hand p with
  | empty => exact absurd h hp
  | claimed b => rfl
  | rebuilt b => rfl

/-- Every action leaves the buffers where they are or moves one into an empty place. -/
theorem conserved_act (h : Conserved s.slots) (hact : act srt s a = some s') :
    Conserved s'.slots := by
  cases a with
  | update e =>
    cases hact
    exact h
  | setMode mode =>
    cases hact
    exact h
  | claim p =>
    obtain ⟨hp,⟨_,rfl⟩ | ⟨b,hb,rfl⟩⟩ := act_claim hact
    · exact h
    · have hmove := h.move (p := .free) (q := .hand p) (by simp) (by simp [State.slots,hp])
      apply hmove.of_eq
      funext q
      rw [move_apply]
      cases q <;> simp [State.slots,hb,Hand.buffer_update]
  | rebuild p =>
    obtain ⟨b,snap,hp,_,rfl⟩ := act_rebuild hact
    apply h.of_eq
    funext q
    cases q with
    | hand q =>
      simp only [State.slots,Hand.buffer_update]
      split
      · next hq => simp [hq,hp]
      · rfl
    | _ => rfl
  | publish p =>
    obtain ⟨b,hp,rfl⟩ := act_publish hact
    have hfresh : s.slots .fresh = none :=
      slots_eq_none h (p := .hand p) (slots_hand_isSome (by simp [hp])) (by simp) (by simp) (by simp)
    apply (h.move (p := .hand p) (q := .fresh) (by simp) hfresh).of_eq
    funext q
    rw [move_apply]
    cases q <;> simp [State.slots,hp,Hand.buffer_update]
  | poll =>
    obtain ⟨hs,⟨_,rfl⟩ | ⟨new,hnew,rfl⟩⟩ := act_poll hact
    · apply h.of_eq
      funext q
      cases q <;> simp [State.slots,hs,Stage.buffer]
    · -- the old buffer makes room, then the new one takes its place
      have hold := h.move (p := .held) (q := .swapped) (by simp) (by simp [State.slots,hs,Stage.buffer])
      have hboth := hold.move (p := .fresh) (q := .held) (by simp) (by simp [move_apply])
      apply hboth.of_eq
      funext q
      rw [move_apply,move_apply,move_apply]
      cases q <;> simp [State.slots,hnew,Stage.buffer]
  | release =>
    obtain ⟨old,hs,rfl⟩ := act_release hact
    have hfree : s.slots .free = none :=
      slots_eq_none h (p := .swapped) (by simp [State.slots,hs,Stage.buffer]) (by simp) (by simp)
        (by simp)
    apply (h.move (p := .swapped) (q := .free) (by simp) hfree).of_eq
    funext q
    rw [move_apply]
    cases q <;> simp [State.slots,hs,Stage.buffer]
  | draw direction =>
    obtain ⟨hs,rfl⟩ := act_draw hact
    apply h.of_eq
    funext q
    cases q <;> simp [State.slots,hs,Stage.buffer]

theorem conserved_run {as : List Action} (h : (machine srt).run as = some s) :
    Conserved s.slots := by
  refine Machine.invariant (P := fun s => Conserved s.slots) conserved_init
    (fun s a s' hs ht => ?_) h
  obtain ⟨t,hact,rfl⟩ := Option.map_eq_some_iff.mp ht
  exact (conserved_act hs hact : Conserved t.slots)

/-- Where the two buffers are in `s`. -/
structure Circulating (s : State) : Prop where
  /-- each buffer is in exactly one place -/
  conserved : Conserved s.slots
  /-- beside the buffer that the display holds, exactly one place is occupied -/
  other : ∃! p, p ≠ Place.held ∧ (s.slots p).isSome
  /-- a producer about to publish finds the signal empty -/
  publish_fresh : ∀ p b, s.hand p = .rebuilt b → s.fresh = none
  /-- the display about to recycle finds the signal empty -/
  release_free : ∀ old, s.stage = .releasing old → s.free = none
  one_producer : ∀ p q, s.hand p ≠ .empty → s.hand q ≠ .empty → p = q
  one_signal : (∀ p, s.hand p = .empty) → (∀ old, s.stage ≠ .releasing old) →
    s.free.isSome = !s.fresh.isSome

/-- The buffers circulate without loss in every reachable state. -/
theorem circulating_run {as : List Action} (h : (machine srt).run as = some s) :
    Circulating s := by
  have hc := conserved_run h
  -- where the buffer is that the display does not hold
  obtain ⟨p,hp,hsome⟩ := hc.exists_occupied_ne (by decide) .held
  refine ⟨hc,⟨p,⟨hp,hsome⟩,fun q hq => place_unique hc hq.2 hsome hq.1 hp⟩,?_,?_,?_,?_⟩
  · intro q b hq
    exact slots_eq_none hc (p := .hand q) (q := .fresh) (slots_hand_isSome (by simp [hq])) (by simp)
      (by simp) (by simp)
  · intro old hold
    exact slots_eq_none hc (p := .swapped) (q := .free) (by simp [State.slots,hold,Stage.buffer])
      (by simp) (by simp) (by simp)
  · intro q r hq hr
    have hqr := place_unique hc (slots_hand_isSome hq) (slots_hand_isSome hr) (by simp) (by simp)
    exact Place.hand.inj hqr
  · intro hempty hstage
    have hplace : p = .free ∨ p = .fresh := by
      cases p with
      | held => exact absurd rfl hp
      | swapped =>
        cases hs : s.stage with
        | releasing old => exact absurd hs (hstage old)
        | polling => simp [State.slots,hs,Stage.buffer] at hsome
        | drawing => simp [State.slots,hs,Stage.buffer] at hsome
      | free => exact Or.inl rfl
      | fresh => exact Or.inr rfl
      | hand q => simp [State.slots,hempty q] at hsome
    obtain rfl | rfl := hplace
    · have hfresh : s.fresh = none :=
        slots_eq_none hc (p := .free) (q := .fresh) hsome (by simp) (by simp) (by simp)
      rw [hfresh,show s.free.isSome = true from hsome]
      rfl
    · have hfree : s.free = none :=
        slots_eq_none hc (p := .fresh) (q := .free) hsome (by simp) (by simp) (by simp)
      rw [hfree,show s.fresh.isSome = true from hsome]
      rfl

/-! ### The order of adoptions -/

/-- What an observer of the machine writes down, with the time of the change or of the
rebuild. -/
inductive Note
  | changed (time : ℕ)
  | built (time : ℕ) (snap : ClusterVec)
  | adopted (builtAt : ℕ) (snap : ClusterVec)

variable (srt) in
/-- The notes of one action. -/
def notes (s : State) : Action → List Note
  | .update _ => [.changed s.time]
  | .setMode _ => [.changed s.time]
  | .rebuild p =>
    match s.hand p with
    | .claimed b =>
      match s.registry.rebuildClustersInto srt (s.memory b) (MapMode.current s.mode) with
      | some snap => [.built s.time snap]
      | none => []
    | _ => []
  | .poll =>
    match act srt s .poll with
    | some s' =>
      match s'.stage with
      -- the buffers were swapped: what the display holds now
      | .releasing _ => [.adopted (s'.builtAt s'.clusters) (s'.memory s'.clusters)]
      | _ => []
    | none => []
  | _ => []

theorem notes_poll_swap {new : Buffer} (hs : s.stage = .polling) (hnew : s.fresh = some new) :
    notes srt s .poll = [.adopted (s.builtAt new) (s.memory new)] := by
  simp only [notes,act,hs,hnew]

theorem notes_poll_none (hs : s.stage = .polling) (hnone : s.fresh = none) :
    notes srt s .poll = [] := by
  simp only [notes,act,hs,hnone]

/-- The rebuilt snapshots, with their times. -/
def builds (log : List Note) : List (ℕ × ClusterVec) :=
  log.filterMap fun
    | .built time snap => some (time,snap)
    | _ => none

/-- The adopted snapshots, with the times at which they were rebuilt. -/
def adoptions (log : List Note) : List (ℕ × ClusterVec) :=
  log.filterMap fun
    | .adopted builtAt snap => some (builtAt,snap)
    | _ => none

/-- The times of the registry updates and mode changes. -/
def changes (log : List Note) : List ℕ :=
  log.filterMap fun
    | .changed time => some time
    | _ => none

/-- `b` is rebuilt and not yet adopted. -/
def Pending (s : State) (b : Buffer) : Prop := s.fresh = some b ∨ ∃ p, s.hand p = .rebuilt b

/-- The log accounts for the state: whatever is adopted or pending was built, in order. -/
structure Ordered (log : List Note) (s : State) : Prop where
  conserved : Conserved s.slots
  built : (adoptions log).Sublist (builds log)
  pending : ∀ b, Pending s b →
    (adoptions log ++ [(s.builtAt b,s.memory b)]).Sublist (builds log)
  strict : (builds log).Pairwise fun x y => x.1 < y.1
  past : ∀ x ∈ builds log, x.1 < s.time

omit [TickRate] in
theorem Pending.place {b : Buffer} (h : Pending s b) :
    ∃ p, s.slots p = some b ∧ (p = .fresh ∨ ∃ q, p = .hand q ∧ s.hand q = .rebuilt b) := by
  obtain h | ⟨q,hq⟩ := h
  · exact ⟨.fresh,h,Or.inl rfl⟩
  · exact ⟨.hand q,by simp [State.slots,hq],Or.inr ⟨q,rfl,hq⟩⟩

omit [TickRate] in
/-- A pending buffer is not the one the display draws. -/
theorem Pending.ne_clusters {b : Buffer} (hc : Conserved s.slots) (h : Pending s b) :
    b ≠ s.clusters := by
  obtain ⟨p,hp,hplace⟩ := h.place
  rintro rfl
  have hheld := hc.eq_of_eq_some (p := p) (q := .held) hp rfl
  obtain rfl | ⟨q,rfl,_⟩ := hplace <;> cases hheld

omit [TickRate] in
theorem builds_append (log log' : List Note) : builds (log ++ log') = builds log ++ builds log' :=
  List.filterMap_append

omit [TickRate] in
theorem adoptions_append (log log' : List Note) :
    adoptions (log ++ log') = adoptions log ++ adoptions log' := List.filterMap_append

omit [TickRate] in
/-- An action that neither builds nor adopts and makes nothing pending. -/
theorem Ordered.quiet {log log' : List Note} (h : Ordered log s) (hc : Conserved s'.slots)
    (htime : s.time ≤ s'.time) (hb : builds log' = []) (ha : adoptions log' = [])
    (hp : ∀ b, Pending s' b →
      Pending s b ∧ s'.builtAt b = s.builtAt b ∧ s'.memory b = s.memory b) :
    Ordered (log ++ log') s' := by
  have hbuilds : builds (log ++ log') = builds log := by rw [builds_append,hb,List.append_nil]
  have hadopt : adoptions (log ++ log') = adoptions log := by
    rw [adoptions_append,ha,List.append_nil]
  refine ⟨hc,?_,?_,?_,?_⟩
  · rw [hbuilds,hadopt]
    exact h.built
  · intro b hb'
    obtain ⟨hpend,hat,hmem⟩ := hp b hb'
    rw [hbuilds,hadopt,hat,hmem]
    exact h.pending b hpend
  · rw [hbuilds]
    exact h.strict
  · intro x hx
    rw [hbuilds] at hx
    exact (h.past x hx).trans_le htime

omit [TickRate] in
/-- An action that rebuilds `b`, now the only pending buffer. -/
theorem Ordered.build {log : List Note} {b : Buffer} {snap : ClusterVec} (h : Ordered log s)
    (hc : Conserved s'.slots) (htime : s'.time = s.time + 1) (hat : s'.builtAt b = s.time)
    (hmem : s'.memory b = snap) (hpend : ∀ b', Pending s' b' → b' = b) :
    Ordered (log ++ [.built s.time snap]) s' := by
  have hbuilds : builds (log ++ [.built s.time snap]) = builds log ++ [(s.time,snap)] := by
    rw [builds_append]
    rfl
  have hadopt : adoptions (log ++ [.built s.time snap]) = adoptions log := by
    rw [adoptions_append]
    exact List.append_nil _
  refine ⟨hc,?_,?_,?_,?_⟩
  · rw [hbuilds,hadopt]
    exact h.built.trans (List.sublist_append_left _ _)
  · intro b' hb'
    obtain rfl := hpend b' hb'
    rw [hbuilds,hadopt,hat,hmem]
    exact h.built.append_right _
  · rw [hbuilds,List.pairwise_append]
    refine ⟨h.strict,List.pairwise_singleton _ _,?_⟩
    intro x hx y hy
    rw [List.mem_singleton.mp hy]
    exact h.past x hx
  · intro x hx
    rw [hbuilds,List.mem_append,List.mem_singleton] at hx
    rw [htime]
    obtain hx | rfl := hx
    · exact Nat.lt_succ_of_lt (h.past x hx)
    · exact Nat.lt_succ_self _

omit [TickRate] in
/-- An action that adopts the pending buffer `b` and leaves none. -/
theorem Ordered.adopt {log : List Note} {b : Buffer} (h : Ordered log s)
    (hc : Conserved s'.slots) (htime : s.time ≤ s'.time) (hb : Pending s b)
    (hnone : ∀ b', ¬ Pending s' b') :
    Ordered (log ++ [.adopted (s.builtAt b) (s.memory b)]) s' := by
  have hbuilds : builds (log ++ [.adopted (s.builtAt b) (s.memory b)]) = builds log := by
    rw [builds_append]
    exact List.append_nil _
  have hadopt : adoptions (log ++ [.adopted (s.builtAt b) (s.memory b)]) =
      adoptions log ++ [(s.builtAt b,s.memory b)] := by
    rw [adoptions_append]
    rfl
  refine ⟨hc,?_,fun b' hb' => absurd hb' (hnone b'),?_,?_⟩
  · rw [hbuilds,hadopt]
    exact h.pending b hb
  · rw [hbuilds]
    exact h.strict
  · intro x hx
    rw [hbuilds] at hx
    exact (h.past x hx).trans_le htime

omit [TickRate] in
/-- While a producer rebuilds, nothing is pending: it holds the second buffer. -/
theorem not_pending_of_claimed (hc : Conserved s.slots) {p : Producer} {b : Buffer}
    (hp : s.hand p = .claimed b) (b' : Buffer) : ¬ Pending s b' := by
  intro hb'
  obtain ⟨q,hq,hplace⟩ := hb'.place
  have hq' : q ≠ .held := by rcases hplace with rfl | ⟨r,rfl,_⟩ <;> simp
  have hhand := place_unique hc (p := q) (q := .hand p) (by rw [hq]; rfl)
    (slots_hand_isSome (by simp [hp])) hq' (by simp)
  obtain rfl | ⟨r,rfl,hr⟩ := hplace
  · cases hhand
  · obtain rfl := Place.hand.inj hhand
    rw [hp] at hr
    cases hr

omit [TickRate] in
/-- While the signal holds the second buffer, no producer does. -/
theorem not_rebuilt_of_fresh (hc : Conserved s.slots) {new : Buffer} (hnew : s.fresh = some new)
    (p : Producer) (b : Buffer) : s.hand p ≠ .rebuilt b := by
  intro hp
  have hplace := place_unique hc (p := .fresh) (q := .hand p) (by rw [State.slots,hnew]; rfl)
    (slots_hand_isSome (by rw [hp]; simp)) (by simp) (by simp)
  cases hplace

theorem Ordered.step {log : List Note} (h : Ordered log s) (hstep : step srt s a = some s') :
    Ordered (log ++ notes srt s a) s' := by
  obtain ⟨t,hact,rfl⟩ := Option.map_eq_some_iff.mp hstep
  have hc : Conserved t.slots := conserved_act h.conserved hact
  have htime : s.time ≤ s.time + 1 := Nat.le_succ _
  cases a with
  | update e =>
    cases hact
    exact h.quiet hc htime rfl rfl fun b hb => ⟨hb,rfl,rfl⟩
  | setMode mode =>
    cases hact
    exact h.quiet hc htime rfl rfl fun b hb => ⟨hb,rfl,rfl⟩
  | claim p =>
    obtain ⟨hp,⟨_,rfl⟩ | ⟨b,hb,rfl⟩⟩ := act_claim hact
    · exact h.quiet hc htime rfl rfl fun b hb => ⟨hb,rfl,rfl⟩
    · refine h.quiet hc htime rfl rfl fun b' hb' => ⟨?_,rfl,rfl⟩
      obtain hb' | ⟨q,hq⟩ := hb'
      · exact Or.inl hb'
      · simp only [Function.update_apply] at hq
        split at hq
        · cases hq
        · exact Or.inr ⟨q,hq⟩
  | rebuild p =>
    obtain ⟨b,snap,hp,hsnap,rfl⟩ := act_rebuild hact
    have honly := not_pending_of_claimed h.conserved hp
    simp only [notes,hp,hsnap]
    refine h.build hc rfl (Function.update_self ..) (Function.update_self ..) ?_
    rintro b' (hb' | ⟨q,hq⟩)
    · exact absurd (Or.inl hb') (honly b')
    · simp only [Function.update_apply] at hq
      split at hq
      · exact (Hand.rebuilt.inj hq).symm
      · exact absurd (Or.inr ⟨q,hq⟩) (honly b')
  | publish p =>
    obtain ⟨b,hp,rfl⟩ := act_publish hact
    refine h.quiet hc htime rfl rfl fun b' hb' => ⟨?_,rfl,rfl⟩
    obtain hb' | ⟨q,hq⟩ := hb'
    · exact Or.inr ⟨p,hp.trans (congrArg Hand.rebuilt (Option.some.inj hb'))⟩
    · simp only [Function.update_apply] at hq
      split at hq
      · cases hq
      · exact Or.inr ⟨q,hq⟩
  | poll =>
    obtain ⟨hs,⟨hnone,rfl⟩ | ⟨new,hnew,rfl⟩⟩ := act_poll hact
    · rw [notes_poll_none hs hnone]
      exact h.quiet hc htime rfl rfl fun b hb => ⟨hb,rfl,rfl⟩
    · rw [notes_poll_swap hs hnew]
      refine h.adopt hc htime (Or.inl hnew) ?_
      rintro b' (hb' | ⟨q,hq⟩)
      · cases hb'
      · exact not_rebuilt_of_fresh h.conserved hnew q b' hq
  | release =>
    obtain ⟨old,_,rfl⟩ := act_release hact
    exact h.quiet hc htime rfl rfl fun b hb => ⟨hb,rfl,rfl⟩
  | draw direction =>
    -- the display turns its own buffer, which is not pending
    obtain ⟨_,rfl⟩ := act_draw hact
    refine h.quiet hc htime rfl rfl fun b hb => ⟨hb,rfl,?_⟩
    exact Function.update_of_ne (Pending.ne_clusters h.conserved hb) _ _

theorem ordered_run {as : List Action} (h : (machine srt).run as = some s) :
    Ordered ((machine srt).trace (notes srt) as) s := by
  refine Machine.run_induction (m := machine srt)
    (P := fun as s => Ordered ((machine srt).trace (notes srt) as) s) ?_ ?_ h
  · refine ⟨conserved_init,List.Sublist.refl _,?_,List.Pairwise.nil,by simp [builds]⟩
    rintro b (hb | ⟨p,hp⟩)
    · cases hb
    · cases hp
  · intro as s a s' hrun hs hstep
    rw [Machine.trace_concat _ hrun]
    exact hs.step hstep

/-- The log adopts snapshots that were built, unchanged and in the order in which they
were built; none that was rebuilt before a change replaces one that was rebuilt after it. -/
structure InBuildOrder (log : List Note) : Prop where
  sublist : (adoptions log).Sublist (builds log)
  strict : (builds log).Pairwise fun x y => x.1 < y.1
  not_overtaken : (adoptions log).Pairwise fun earlier later =>
    ∀ t ∈ changes log, later.1 < t → earlier.1 < t

/-- No stale snapshot overtakes a newer one, in any run. -/
theorem inBuildOrder_run {as : List Action} (h : (machine srt).run as = some s) :
    InBuildOrder ((machine srt).trace (notes srt) as) := by
  have hord := ordered_run h
  refine ⟨hord.built,hord.strict,?_⟩
  exact (hord.strict.sublist hord.built).imp fun hlt t _ ht => Nat.lt_trans hlt ht

end Tasks

/-- The feed publishes a snapshot, the display adopts it, and after a change of mode the
mode task publishes the next one. -/
def twoSnapshots : List Action :=
  [.update ⟨0,.upsert 7 ⟨100,100⟩⟩,.claim .feed,.rebuild .feed,.publish .feed,.claim .nsApi,
    .poll,.release,.draw .yUp,.setMode .randstad,.claim .mapMode,.rebuild .mapMode,
    .publish .mapMode,.poll]

theorem circulating_twoSnapshots : letI := microTicks
    ∃ s, (machine mergeSortByKey).run twoSnapshots = some s ∧ Circulating s := by
  let _ := microTicks
  have hsome : ((machine mergeSortByKey).run twoSnapshots).isSome = true := by decide +kernel
  obtain ⟨s,hs⟩ := Option.isSome_iff_exists.mp hsome
  exact ⟨s,hs,circulating_run hs⟩

theorem inBuildOrder_twoSnapshots : letI := microTicks
    InBuildOrder ((machine mergeSortByKey).trace (notes mergeSortByKey) twoSnapshots) := by
  let _ := microTicks
  have hsome : ((machine mergeSortByKey).run twoSnapshots).isSome = true := by decide +kernel
  obtain ⟨s,hs⟩ := Option.isSome_iff_exists.mp hsome
  exact inBuildOrder_run hs

end NsPixels.ClusterExchange
