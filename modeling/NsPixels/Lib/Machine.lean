import Mathlib.Data.List.Induction

/-!
# Machines driven by actions

A machine has an initial state and a partial step function; an action without a
successor is not enabled. Interleavings of several parties are lists of actions.
-/

/-- A deterministic machine over states `σ`, driven by actions `α`. -/
structure Machine (σ α : Type*) where
  init : σ
  step : σ → α → Option σ

namespace Machine

variable {σ α ω : Type*} (m : Machine σ α)

/-- Perform the actions in order; `none` when one of them is not enabled. -/
def runFrom (s : σ) : List α → Option σ
  | [] => some s
  | a :: as => (m.step s a).bind fun s' => runFrom s' as

/-- A run from the initial state. -/
def run (as : List α) : Option σ := m.runFrom m.init as

/-- What the actions of a run emit, in order. -/
def traceFrom (out : σ → α → List ω) (s : σ) : List α → List ω
  | [] => []
  | a :: as => out s a ++ ((m.step s a).map fun s' => traceFrom out s' as).getD []

/-- What a run from the initial state emits. -/
def trace (out : σ → α → List ω) (as : List α) : List ω := m.traceFrom out m.init as

variable {m} {s s' : σ} {a : α} {as bs : List α}

@[simp] theorem run_nil : m.run [] = some m.init := rfl

@[simp] theorem trace_nil (out : σ → α → List ω) : m.trace out [] = [] := rfl

theorem runFrom_append (s : σ) (as bs : List α) :
    m.runFrom s (as ++ bs) = (m.runFrom s as).bind fun s' => m.runFrom s' bs := by
  induction as generalizing s with
  | nil => rfl
  | cons a as ih =>
    rw [List.cons_append,runFrom,runFrom,Option.bind_assoc]
    congr 1
    funext s'
    exact ih s'

theorem run_append : m.run (as ++ bs) = (m.run as).bind fun s => m.runFrom s bs :=
  runFrom_append _ _ _

/-- A run has passed through a state after each part of it. -/
theorem exists_run_of_prefix (h : m.run bs = some s') (has : as <+: bs) : ∃ s, m.run as = some s := by
  obtain ⟨rest,rfl⟩ := has
  rw [run_append,Option.bind_eq_some_iff] at h
  obtain ⟨s,hs,-⟩ := h
  exact ⟨s,hs⟩

theorem run_concat_eq_some_iff :
    m.run (as ++ [a]) = some s' ↔ ∃ s, m.run as = some s ∧ m.step s a = some s' := by
  have hone : ∀ s, m.runFrom s [a] = m.step s a := by
    intro s
    cases h : m.step s a <;> simp [runFrom,h]
  rw [run,runFrom_append,Option.bind_eq_some_iff]
  simp only [hone]
  rfl

theorem traceFrom_append (out : σ → α → List ω) (h : m.runFrom s as = some s') :
    m.traceFrom out s (as ++ bs) = m.traceFrom out s as ++ m.traceFrom out s' bs := by
  induction as generalizing s with
  | nil =>
    rw [runFrom,Option.some.injEq] at h
    rw [h]
    rfl
  | cons a as ih =>
    rw [runFrom,Option.bind_eq_some_iff] at h
    obtain ⟨t,ht,hrun⟩ := h
    rw [List.cons_append,traceFrom,traceFrom,ht,Option.map_some,Option.map_some,Option.getD_some,
      Option.getD_some,ih hrun,List.append_assoc]

/-- From `s` the actions `as` emit `es` and lead to `s'`. -/
structure Leads (out : σ → α → List ω) (s : σ) (as : List α) (es : List ω) (s' : σ) : Prop where
  run : m.runFrom s as = some s'
  trace : m.traceFrom out s as = es

theorem Leads.nil (out : σ → α → List ω) : m.Leads out s [] [] s := ⟨rfl,rfl⟩

theorem Leads.cons {out : σ → α → List ω} {es : List ω} {t : σ} (h : m.step s a = some t)
    (hrest : m.Leads out t as es s') : m.Leads out s (a :: as) (out s a ++ es) s' := by
  constructor
  · rw [runFrom,h,Option.bind_some,hrest.run]
  · rw [traceFrom,h,Option.map_some,Option.getD_some,hrest.trace]

theorem Leads.append {out : σ → α → List ω} {es fs : List ω} {t : σ} (h : m.Leads out s as es t)
    (h' : m.Leads out t bs fs s') : m.Leads out s (as ++ bs) (es ++ fs) s' := by
  constructor
  · rw [runFrom_append,h.run,Option.bind_some,h'.run]
  · rw [traceFrom_append out h.run,h.trace,h'.trace]

/-- The last action of a run emits last. -/
theorem trace_concat (out : σ → α → List ω) (h : m.run as = some s) :
    m.trace out (as ++ [a]) = m.trace out as ++ out s a := by
  rw [trace,traceFrom_append out h,traceFrom]
  congr 1
  cases m.step s a <;> simp [traceFrom]

/-- What holds initially and is kept by every step, given the run so far, holds
after every run. -/
theorem run_induction {P : List α → σ → Prop} (hinit : P [] m.init)
    (hstep : ∀ as s a s', m.run as = some s → P as s → m.step s a = some s' → P (as ++ [a]) s')
    (h : m.run as = some s) : P as s := by
  induction as using List.reverseRecOn generalizing s with
  | nil =>
    rw [run_nil,Option.some.injEq] at h
    exact h ▸ hinit
  | append_singleton as a ih =>
    obtain ⟨t,hrun,ht⟩ := run_concat_eq_some_iff.mp h
    exact hstep as t a s hrun (ih hrun) ht

/-- What a run emits is emitted by one of its actions. -/
theorem mem_trace {out : σ → α → List ω} {x : ω} (h : m.run as = some s) (hx : x ∈ m.trace out as) :
    ∃ before a later t, as = before ++ a :: later ∧ m.run before = some t ∧ x ∈ out t a := by
  revert hx
  refine run_induction (P := fun as _ => x ∈ m.trace out as → ∃ before a later t,
    as = before ++ a :: later ∧ m.run before = some t ∧ x ∈ out t a) (fun hx => by cases hx) ?_ h
  intro as s a s' hrun ih _ hx
  rw [trace_concat out hrun,List.mem_append] at hx
  obtain hx | hx := hx
  · obtain ⟨before,b,later,t,has,ht,hxt⟩ := ih hx
    refine ⟨before,b,later ++ [a],t,?_,ht,hxt⟩
    rw [has,List.append_assoc,List.cons_append]
  · exact ⟨as,a,[],s,rfl,hrun,hx⟩

/-- An invariant of the steps holds after every run. -/
theorem invariant {P : σ → Prop} (hinit : P m.init)
    (hstep : ∀ s a s', P s → m.step s a = some s' → P s') (h : m.run as = some s) : P s :=
  run_induction (P := fun _ s => P s) hinit (fun _ s a s' _ hs ht => hstep s a s' hs ht) h

/-- Every step that the run takes satisfies `P`. -/
def Always (m : Machine σ α) (P : σ → α → σ → Prop) (as : List α) : Prop :=
  ∀ pre a post s s', as = pre ++ a :: post → m.run pre = some s → m.step s a = some s' → P s a s'

theorem Always.of_append {P : σ → α → σ → Prop} (h : m.Always P (as ++ bs)) : m.Always P as := by
  rintro pre a post s s' rfl hrun hstep
  exact h pre a (post ++ bs) s s' (by simp) hrun hstep

/-- The last step of a run is one of its steps. -/
theorem Always.last {P : σ → α → σ → Prop} (h : m.Always P (as ++ [a])) (hrun : m.run as = some s)
    (hstep : m.step s a = some s') : P s a s' := h as a [] s s' rfl hrun hstep

/-- A property of the steps can be checked along the run. -/
theorem always_of_trace {p : σ → α → Bool} (h : ∀ b ∈ m.trace (fun s a => [p s a]) as, b = true) :
    m.Always (fun s a _ => p s a = true) as := by
  rintro pre a post s s' rfl hrun -
  refine h _ ?_
  rw [trace,traceFrom_append _ hrun,traceFrom]
  exact List.mem_append_right _ (List.mem_cons_self)

/-- Two properties that agree on the steps from reachable states. -/
theorem always_congr {P Q : σ → α → σ → Prop}
    (h : ∀ pre s a s', m.run pre = some s → m.step s a = some s' → (P s a s' ↔ Q s a s')) :
    m.Always P as ↔ m.Always Q as := by
  constructor
  · intro hP pre a post s s' has hrun hstep
    exact (h pre s a s' hrun hstep).mp (hP pre a post s s' has hrun hstep)
  · intro hQ pre a post s s' has hrun hstep
    exact (h pre s a s' hrun hstep).mpr (hQ pre a post s s' has hrun hstep)

/-- `Q` holds of every state a run passes through exactly when all its steps satisfy `P`,
if from a state with `Q` a step satisfies `P` exactly when it leads to one with `Q`. -/
theorem reached_iff_always {Q : σ → Prop} {P : σ → α → σ → Prop} (hinit : Q m.init)
    (hstep : ∀ pre s a s', m.run pre = some s → Q s → m.step s a = some s' → (Q s' ↔ P s a s')) :
    (∀ pre post s, as = pre ++ post → m.run pre = some s → Q s) ↔ m.Always P as := by
  constructor
  · intro hQ pre a post s s' has hrun ht
    have has' : as = (pre ++ [a]) ++ post := by rw [has,List.append_assoc]; rfl
    have hs' := hQ (pre ++ [a]) post s' has' (run_concat_eq_some_iff.mpr ⟨s,hrun,ht⟩)
    exact (hstep pre s a s' hrun (hQ pre (a :: post) s has hrun) ht).mp hs'
  · intro hP pre
    induction pre using List.reverseRecOn with
    | nil =>
      intro post s _ hrun
      rw [run_nil,Option.some.injEq] at hrun
      exact hrun ▸ hinit
    | append_singleton pre a ih =>
      intro post s has hrun
      obtain ⟨t,ht,hst⟩ := run_concat_eq_some_iff.mp hrun
      rw [List.append_assoc,List.singleton_append] at has
      exact (hstep pre t a s ht (ih (a :: post) t has ht) hst).mpr (hP pre a post t s has ht hst)

/-! ### A machine that feeds another one -/

section Feeding

variable {τ β : Type*} (m : Machine σ α) (n : Machine τ β)

/-- Both machines; each action of the first one also performs actions of the second, which
takes those that are `own` by itself. -/
def feeding (emit : σ → α → List β) (own : β → Bool) : Machine (σ × τ) (α ⊕ β) where
  init := (m.init,n.init)
  step s
    | .inl a => (m.step s.1 a).bind fun s₁ => (n.runFrom s.2 (emit s.1 a)).map fun s₂ => (s₁,s₂)
    | .inr b => if own b then (n.step s.2 b).map fun s₂ => (s.1,s₂) else none

/-- The actions of the first machine. -/
def lefts (cs : List (α ⊕ β)) : List α := cs.filterMap Sum.getLeft?

variable {m n} {emit : σ → α → List β} {own : β → Bool} {u u' : σ × τ} {cs : List (α ⊕ β)}

theorem feeding_step_inl (h : (m.feeding n emit own).step u (.inl a) = some u') :
    m.step u.1 a = some u'.1 ∧ n.runFrom u.2 (emit u.1 a) = some u'.2 := by
  obtain ⟨s₁,hs₁,h⟩ := Option.bind_eq_some_iff.mp h
  obtain ⟨s₂,hs₂,rfl⟩ := Option.map_eq_some_iff.mp h
  exact ⟨hs₁,hs₂⟩

theorem feeding_step_inr {b : β} (h : (m.feeding n emit own).step u (.inr b) = some u') :
    own b = true ∧ u'.1 = u.1 ∧ n.step u.2 b = some u'.2 := by
  simp only [feeding] at h
  split at h
  · next hown =>
    obtain ⟨s₂,hs₂,rfl⟩ := Option.map_eq_some_iff.mp h
    exact ⟨hown,rfl,hs₂⟩
  · cases h

/-- The first machine runs as if it were alone. -/
theorem run_lefts (h : (m.feeding n emit own).run cs = some u) : m.run (lefts cs) = some u.1 := by
  refine run_induction (m := m.feeding n emit own) (P := fun cs u => m.run (lefts cs) = some u.1)
    rfl ?_ h
  intro cs u c u' _ ih hstep
  rw [lefts,List.filterMap_append,← lefts]
  cases c with
  | inl a =>
    exact run_concat_eq_some_iff.mpr ⟨u.1,ih,(feeding_step_inl hstep).1⟩
  | inr b =>
    obtain ⟨-,hfst,-⟩ := feeding_step_inr hstep
    rw [hfst,← ih]
    exact congrArg m.run (List.append_nil _)

/-- What the second machine does, in all. -/
theorem exists_run_right (h : (m.feeding n emit own).run cs = some u) : ∃ bs, n.run bs = some u.2 := by
  refine invariant (m := m.feeding n emit own) (P := fun u => ∃ bs, n.run bs = some u.2)
    ⟨[],rfl⟩ ?_ h
  rintro u c u' ⟨bs,hbs⟩ hstep
  cases c with
  | inl a =>
    refine ⟨bs ++ emit u.1 a,?_⟩
    rw [run_append,hbs]
    exact (feeding_step_inl hstep).2
  | inr b => exact ⟨bs ++ [b],run_concat_eq_some_iff.mpr ⟨u.2,hbs,(feeding_step_inr hstep).2.2⟩⟩

end Feeding

end Machine
