import NsPixels.Registry

/-!
# Runs of registry operations

A run is a list of operations, each performed at an instant. The row of a number
that stays registered evolves on its own: `TrainState.after` says how one
operation changes it.
-/

namespace NsPixels

/-- A mutating operation of the registry. -/
inductive Op
  | upsert (number : UInt32) (pixel : PixelCoord)
  | setType (number : UInt32) (typ : TrainType)
  | setService (number : UInt32) (service : ServiceType)
  | evictOlderThan (cutoff : ℕ)
deriving DecidableEq, Repr

/-- An operation together with the instant at which it is performed. -/
structure Event where
  now : ℕ
  op : Op
deriving DecidableEq, Repr

/-- The number whose attempt on `axis` the operation stamps. -/
def Op.stamps : Op → UnknownAxis → Option UInt32
  | .setType number _,.type => some number
  | .setService number _,.service => some number
  | _,_ => none

/-- Whether the operation upserts `n`. -/
def Event.upserts (n : UInt32) (e : Event) : Bool :=
  match e.op with
  | .upsert m _ => m = n
  | _ => false

/-- Instants never decrease along the run, starting from `start`. -/
def Chronological (start : ℕ) : List Event → Prop
  | [] => True
  | e :: es => start ≤ e.now ∧ Chronological e.now es

/-- The instant of the last operation, or `start`. -/
def lastInstant (start : ℕ) : List Event → ℕ
  | [] => start
  | e :: es => lastInstant e.now es

theorem chronological_append {start : ℕ} {es es' : List Event} :
    Chronological start (es ++ es') ↔
      Chronological start es ∧ Chronological (lastInstant start es) es' := by
  induction es generalizing start with
  | nil => simp [Chronological,lastInstant]
  | cons e es ih => simp only [List.cons_append,Chronological,lastInstant,ih,and_assoc]

variable [TickRate]

namespace TrainState

/-- What an operation makes of the row of `n`, if it leaves the row there. -/
def after (n : UInt32) (s : TrainState) (e : Event) : TrainState :=
  match e.op with
  | .upsert m pixel => if m = n then s.refresh pixel e.now else s
  | .setType m typ => if m = n then s.stampType typ e.now else s
  | .setService m service => if m = n then s.stampService service e.now else s
  | .evictOlderThan _ => s

@[simp] theorem after_upsert (n m : UInt32) (s : TrainState) (pixel : PixelCoord) (now : ℕ) :
    s.after n ⟨now,.upsert m pixel⟩ = if m = n then s.refresh pixel now else s := rfl

@[simp] theorem after_setType (n m : UInt32) (s : TrainState) (typ : TrainType) (now : ℕ) :
    s.after n ⟨now,.setType m typ⟩ = if m = n then s.stampType typ now else s := rfl

@[simp] theorem after_setService (n m : UInt32) (s : TrainState) (service : ServiceType)
    (now : ℕ) :
    s.after n ⟨now,.setService m service⟩ = if m = n then s.stampService service now else s := rfl

/-- An upsert of `n` refreshes its row. -/
theorem after_of_upserts {n : UInt32} {e : Event} (h : e.upserts n = true) (s : TrainState) :
    ∃ pixel, s.after n e = s.refresh pixel e.now := by
  obtain ⟨now,op⟩ := e
  cases op with
  | upsert m pixel => exact ⟨pixel,if_pos (of_decide_eq_true h)⟩
  | setType m typ => cases h
  | setService m service => cases h
  | evictOlderThan cutoff => cases h

/-- An operation that neither upserts `n` nor stamps an attempt of `n` on `axis` leaves
alone all that `axis` depends on. -/
theorem after_of_idle {axis : UnknownAxis} {n : UInt32} {e : Event}
    (hup : e.upserts n = false) (h : e.op.stamps axis ≠ some n) (s : TrainState) :
    (s.after n e).attemptAgoS axis = s.attemptAgoS axis ∧
      (s.after n e).isUnknown axis = s.isUnknown axis ∧
      (s.after n e).lastSeen = s.lastSeen := by
  obtain ⟨now,op⟩ := e
  cases op with
  | upsert m pixel =>
    rw [after_upsert,if_neg (of_decide_eq_false hup)]
    exact ⟨rfl,rfl,rfl⟩
  | setType m typ =>
    rw [after_setType]
    split
    · next hm =>
      cases axis with
      | type => exact absurd (congrArg some hm) h
      | service => exact ⟨rfl,rfl,rfl⟩
    · exact ⟨rfl,rfl,rfl⟩
  | setService m service =>
    rw [after_setService]
    split
    · next hm =>
      cases axis with
      | type => exact ⟨rfl,rfl,rfl⟩
      | service => exact absurd (congrArg some hm) h
    · exact ⟨rfl,rfl,rfl⟩
  | evictOlderThan cutoff => exact ⟨rfl,rfl,rfl⟩

/-- An operation that stamps no attempt of `n` on `axis` either refreshes the row
or leaves alone all that `axis` depends on. -/
theorem after_of_quiet {axis : UnknownAxis} {n : UInt32} {e : Event}
    (h : e.op.stamps axis ≠ some n) (s : TrainState) :
    (∃ pixel, s.after n e = s.refresh pixel e.now) ∨
      ((s.after n e).attemptAgoS axis = s.attemptAgoS axis ∧
        (s.after n e).isUnknown axis = s.isUnknown axis ∧
        (s.after n e).lastSeen = s.lastSeen) := by
  cases hup : e.upserts n with
  | true => exact Or.inl (after_of_upserts hup s)
  | false => exact Or.inr (after_of_idle hup h s)

/-- An operation that stamps an attempt of `n` on `axis` writes its offset. -/
theorem after_of_stamps {axis : UnknownAxis} {n : UInt32} {e : Event}
    (h : e.op.stamps axis = some n) (s : TrainState) :
    (s.after n e).attemptAgoS axis = attemptOffsetS s.lastSeen e.now ∧
      (s.after n e).lastSeen = s.lastSeen := by
  obtain ⟨now,op⟩ := e
  cases op <;> cases axis <;> cases h <;> simp [attemptAgoS,stampType,stampService]

/-- Only an upsert of `n` moves the instant it was seen at. -/
theorem lastSeen_after (n : UInt32) (s : TrainState) (e : Event) :
    (s.after n e).lastSeen = s.lastSeen ∨
      ∃ pixel, e.op = .upsert n pixel ∧ (s.after n e).lastSeen = e.now := by
  obtain ⟨now,op⟩ := e
  cases op with
  | upsert m pixel =>
    rw [after_upsert]
    split
    · next hm => exact Or.inr ⟨pixel,by rw [hm],rfl⟩
    · exact Or.inl rfl
  | setType m typ =>
    rw [after_setType]
    split <;> exact Or.inl rfl
  | setService m service =>
    rw [after_setService]
    split <;> exact Or.inl rfl
  | evictOlderThan cutoff => exact Or.inl rfl

end TrainState

namespace Registry

/-- Perform one operation. -/
def apply (r : Registry) (e : Event) : Registry :=
  match e.op with
  | .upsert number pixel => (r.upsert number pixel e.now).1
  | .setType number typ => r.setType number typ e.now
  | .setService number service => r.setService number service e.now
  | .evictOlderThan cutoff => (r.evictOlderThan cutoff).1

/-- Perform the operations of a run in order. -/
def run (r : Registry) (es : List Event) : Registry := es.foldl apply r

@[simp] theorem run_nil (r : Registry) : r.run [] = r := rfl

@[simp] theorem run_cons (r : Registry) (e : Event) (es : List Event) :
    r.run (e :: es) = (r.apply e).run es := rfl

theorem run_append (r : Registry) (es es' : List Event) :
    r.run (es ++ es') = (r.run es).run es' := List.foldl_append

omit [TickRate] in
/-- An operation that rewrites the row of `m` in place, seen from the row of `n`. -/
theorem get_apply_cases_of_modify {r r' : Registry} {n m : UInt32} {f : TrainState → TrainState}
    {g : TrainState → TrainState} {P Q : Prop}
    (hget : r'.get n = if n = m then (r.get n).map f else r.get n)
    (hg : ∀ s, g s = if m = n then f s else s) :
    (∃ s, r.get n = some s ∧ r'.get n = some (g s)) ∨ P ∨ Q ∨
      (r.get n = none ∧ r'.get n = none) := by
  cases hn : r.get n with
  | some s =>
    refine Or.inl ⟨s,rfl,?_⟩
    rw [hget,hn,hg]
    by_cases hmn : n = m
    · rw [if_pos hmn,if_pos hmn.symm]
      rfl
    · rw [if_neg hmn,if_neg (Ne.symm hmn)]
  | none => exact Or.inr (Or.inr (Or.inr ⟨rfl,by simp [hget,hn]⟩))

/-- What one operation can do to the row of `n`: an existing row is updated by
`after` or evicted, an absent one is created by an upsert of `n` or stays absent. -/
theorem get_apply_cases (r : Registry) (e : Event) (n : UInt32) :
    (∃ s, r.get n = some s ∧ (r.apply e).get n = some (s.after n e)) ∨
    (∃ cutoff, e.op = .evictOlderThan cutoff ∧ (r.apply e).get n = none) ∨
    (∃ pixel, e.op = .upsert n pixel ∧ r.get n = none ∧
      (r.apply e).get n = some (TrainState.new pixel e.now)) ∨
    (r.get n = none ∧ (r.apply e).get n = none) := by
  obtain ⟨now,op⟩ := e
  cases op with
  | upsert m pixel =>
    by_cases hmn : n = m
    · subst hmn
      cases hn : r.get n with
      | some s =>
        refine Or.inl ⟨s,rfl,?_⟩
        simp only [apply,get_upsert_of_some hn,TrainState.after,if_true]
      | none =>
        have hget := get_upsert_of_none hn pixel now n
        simp only [true_and] at hget
        by_cases hN : r.map.len < maxTrains
        · exact Or.inr (Or.inr (Or.inl ⟨pixel,rfl,rfl,hget.trans (if_pos hN)⟩))
        · exact Or.inr (Or.inr (Or.inr ⟨rfl,(hget.trans (if_neg hN)).trans hn⟩))
    · have hget : (r.apply ⟨now,.upsert m pixel⟩).get n = r.get n := by
        cases hm : r.get m with
        | some s => simp only [apply,get_upsert_of_some hm,if_neg hmn]
        | none => simp only [apply,get_upsert_of_none hm,hmn,false_and,if_false]
      cases hn : r.get n with
      | some s => exact Or.inl ⟨s,rfl,by simp only [hget,hn,TrainState.after,if_neg (Ne.symm hmn)]⟩
      | none => exact Or.inr (Or.inr (Or.inr ⟨rfl,hget.trans hn⟩))
  | setType m typ =>
    exact get_apply_cases_of_modify (r.get_setType m n typ now) fun _ => rfl
  | setService m service =>
    exact get_apply_cases_of_modify (r.get_setService m n service now) fun _ => rfl
  | evictOlderThan cutoff =>
    cases hn : r.get n with
    | some s =>
      by_cases hmem : n ∈ (collectStale cutoff r.map.entries FixedCap.Vec.empty).toList
      · exact Or.inr (Or.inl ⟨cutoff,rfl,by simp only [apply,get_evictOlderThan,if_pos hmem]⟩)
      · refine Or.inl ⟨s,rfl,?_⟩
        simp only [apply,get_evictOlderThan,if_neg hmem,hn,TrainState.after]
    | none =>
      refine Or.inr (Or.inr (Or.inr ⟨rfl,?_⟩))
      simp only [apply,get_evictOlderThan,hn,ite_self]

/-- A row that survives an operation is updated by `after`. -/
theorem get_apply_of_some {r : Registry} {e : Event} {n : UInt32} {s s' : TrainState}
    (h : r.get n = some s) (h' : (r.apply e).get n = some s') : s' = s.after n e := by
  rcases r.get_apply_cases e n with ⟨t,ht,hr⟩ | ⟨_,_,hr⟩ | ⟨_,_,ht,_⟩ | ⟨ht,_⟩
  · rw [h,Option.some.injEq] at ht
    rw [h',Option.some.injEq] at hr
    exact ht ▸ hr
  · rw [h'] at hr
    cases hr
  · rw [h] at ht
    cases ht
  · rw [h] at ht
    cases ht

/-- `n` is registered in every state the run passes through. -/
def Stays (n : UInt32) (r : Registry) : List Event → Prop
  | [] => (r.get n).isSome
  | e :: es => (r.get n).isSome ∧ Stays n (r.apply e) es

theorem Stays.isSome {n : UInt32} {r : Registry} {es : List Event} (h : Stays n r es) :
    (r.get n).isSome := by
  cases es with
  | nil => exact h
  | cons e es => exact h.1

/-- While a number stays registered, its row is a fold over the run. -/
theorem get_run_of_stays {n : UInt32} {r : Registry} {es : List Event} {s : TrainState}
    (hs : r.get n = some s) (h : Stays n r es) :
    (r.run es).get n = some (es.foldl (TrainState.after n) s) := by
  induction es generalizing r s with
  | nil => exact hs
  | cons e es ih =>
    obtain ⟨s',hs'⟩ := Option.isSome_iff_exists.mp h.2.isSome
    rw [run_cons,List.foldl_cons,← get_apply_of_some hs hs']
    exact ih hs' h.2

/-- Every row was seen no later than `now`. -/
def SeenBy (r : Registry) (now : ℕ) : Prop := ∀ n s, r.get n = some s → s.lastSeen ≤ now

omit [TickRate] in
theorem SeenBy.mono {r : Registry} {t t' : ℕ} (h : r.SeenBy t) (ht : t ≤ t') : r.SeenBy t' :=
  fun n s hs => (h n s hs).trans ht

omit [TickRate] in
theorem SeenBy.entries {r : Registry} {now : ℕ} (h : r.SeenBy now) :
    ∀ e ∈ r.map.entries, e.2.lastSeen ≤ now :=
  fun e he => h e.1 e.2 (get_eq_some_iff.mpr he)

theorem after_lastSeen_le {n : UInt32} {s : TrainState} {e : Event} {t : ℕ}
    (h : s.lastSeen ≤ t) (he : e.now ≤ t) : (s.after n e).lastSeen ≤ t := by
  obtain hsame | ⟨_,_,hnow⟩ := s.lastSeen_after n e
  · exact hsame.trans_le h
  · exact hnow.trans_le he

/-- An operation performed at most at `t` shows no row later than that. -/
theorem SeenBy.apply {r : Registry} {t : ℕ} {e : Event} (h : r.SeenBy t) (he : e.now ≤ t) :
    (r.apply e).SeenBy t := by
  intro n s hs
  rcases r.get_apply_cases e n with ⟨s₀,h₀,hr⟩ | ⟨_,_,hr⟩ | ⟨_,_,_,hr⟩ | ⟨_,hr⟩
  · rw [hs,Option.some.injEq] at hr
    exact hr ▸ after_lastSeen_le (h n s₀ h₀) he
  · rw [hs] at hr
    cases hr
  · rw [hs,Option.some.injEq] at hr
    rw [hr]
    exact he
  · rw [hs] at hr
    cases hr

theorem SeenBy.run_of_le {r : Registry} {t : ℕ} {es : List Event} (h : r.SeenBy t)
    (he : ∀ e ∈ es, e.now ≤ t) : (r.run es).SeenBy t := by
  induction es generalizing r with
  | nil => exact h
  | cons e es ih =>
    exact ih (h.apply (he e List.mem_cons_self)) fun e' he' => he e' (List.mem_cons_of_mem e he')

/-- In a chronological run no row is seen after the last instant. -/
theorem SeenBy.run {r : Registry} {start : ℕ} {es : List Event} (h : r.SeenBy start)
    (hc : Chronological start es) : (r.run es).SeenBy (lastInstant start es) := by
  induction es generalizing r start with
  | nil => exact h
  | cons e es ih => exact ih ((h.mono hc.1).apply (Nat.le_refl _)) hc.2

end Registry

end NsPixels
