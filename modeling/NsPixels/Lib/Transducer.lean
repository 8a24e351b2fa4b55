import Mathlib.Data.List.Induction

/-!
# Loops that read and emit

A loop over a list of inputs that keeps a state and emits outputs on the way. What it
does on a concatenation is what it does on the parts, one after the other.
-/

namespace Transducer

variable {σ α β ω : Type*} {step : σ → α → σ × List ω}

/-- Read the inputs in order: the final state and everything emitted. -/
def run (step : σ → α → σ × List ω) (s : σ) : List α → σ × List ω
  | [] => (s,[])
  | a :: as =>
    let rest := run step (step s a).1 as
    (rest.1,(step s a).2 ++ rest.2)

/-- From `s`, the inputs `as` lead to `s'` and emit `out`. -/
def Reads (step : σ → α → σ × List ω) (s : σ) (as : List α) (s' : σ) (out : List ω) : Prop :=
  run step s as = (s',out)

namespace Reads

variable {s s' s'' : σ} {a : α} {as bs : List α} {out out' : List ω}

theorem nil (step : σ → α → σ × List ω) (s : σ) : Reads step s [] s [] := rfl

theorem cons (ha : step s a = (s',out)) (h : Reads step s' as s'' out') :
    Reads step s (a :: as) s'' (out ++ out') := by
  rw [Reads] at h
  rw [Reads,run,ha,h]

/-- A step that emits nothing. -/
theorem cons_silent (ha : step s a = (s',[])) (h : Reads step s' as s'' out) :
    Reads step s (a :: as) s'' out := cons ha h

theorem single (ha : step s a = (s',out)) : Reads step s [a] s' out := by
  rw [← List.append_nil out]
  exact cons ha (nil step s')

theorem append (h : Reads step s as s' out) (h' : Reads step s' bs s'' out') :
    Reads step s (as ++ bs) s'' (out ++ out') := by
  induction as generalizing s out with
  | nil =>
    obtain ⟨rfl,rfl⟩ := Prod.mk.inj h
    exact h'
  | cons a as ih =>
    obtain ⟨h₁,rfl⟩ := Prod.mk.inj h
    rw [List.cons_append,List.append_assoc]
    exact cons rfl (ih (Prod.ext h₁ rfl))

theorem append_silent (h : Reads step s as s' []) (h' : Reads step s' bs s'' out) :
    Reads step s (as ++ bs) s'' out := h.append h'

/-- Parts read in a row, each of which keeps `R` and emits what `g` says. -/
theorem flatMap {R : σ → Prop} {f : β → List α} {g : β → List ω} {bs : List β}
    (hf : ∀ b ∈ bs, ∀ s, R s → ∃ s', Reads step s (f b) s' (g b) ∧ R s') (hs : R s) :
    ∃ s', Reads step s (bs.flatMap f) s' (bs.flatMap g) ∧ R s' := by
  induction bs generalizing s with
  | nil => exact ⟨s,nil step s,hs⟩
  | cons b bs ih =>
    obtain ⟨s₁,h₁,hs₁⟩ := hf b List.mem_cons_self s hs
    obtain ⟨s₂,h₂,hs₂⟩ := ih (fun b' hb' => hf b' (List.mem_cons_of_mem b hb')) hs₁
    exact ⟨s₂,h₁.append h₂,hs₂⟩

end Reads

variable {s : σ} {as : List α}

theorem run_append (step : σ → α → σ × List ω) (s : σ) (as bs : List α) :
    run step s (as ++ bs) =
      ((run step (run step s as).1 bs).1,(run step s as).2 ++ (run step (run step s as).1 bs).2) :=
  Reads.append rfl rfl

theorem run_concat (step : σ → α → σ × List ω) (s : σ) (as : List α) (a : α) :
    run step s (as ++ [a]) =
      ((step (run step s as).1 a).1,(run step s as).2 ++ (step (run step s as).1 a).2) :=
  Reads.append rfl (Reads.single rfl)

/-- What holds initially and is kept by every step, given the inputs so far, holds after
every run. -/
theorem run_induction {P : List α → σ → Prop} (hinit : P [] s)
    (hstep : ∀ as s a, P as s → P (as ++ [a]) (step s a).1) (as : List α) :
    P as (run step s as).1 := by
  induction as using List.reverseRecOn with
  | nil => exact hinit
  | append_singleton as a ih =>
    rw [run_concat]
    exact hstep as _ a ih

/-- Where each step emits at most one output, an output of a run comes from one input,
and the outputs before it from the inputs before that. -/
theorem exists_emitting {w : ω} {out out' : List ω} (hone : ∀ s a, (step s a).2.length ≤ 1)
    (h : (run step s as).2 = out ++ w :: out') :
    ∃ before a rest, as = before ++ a :: rest ∧ (run step s before).2 = out ∧
      (step (run step s before).1 a).2 = [w] := by
  induction as generalizing s out with
  | nil => simp [run] at h
  | cons a as ih =>
    rw [run] at h
    match hout : (step s a).2,hone s a with
    | [],_ =>
      rw [hout] at h
      obtain ⟨before,b,rest,rfl,hbefore,hb⟩ := ih h
      exact ⟨a :: before,b,rest,rfl,by rw [run,hout]; exact hbefore,hb⟩
    | [v],_ =>
      rw [hout,List.singleton_append] at h
      cases out with
      | nil =>
        obtain ⟨rfl,-⟩ := List.cons_eq_cons.mp h
        exact ⟨[],a,as,rfl,rfl,hout⟩
      | cons u out =>
        obtain ⟨rfl,htail⟩ := List.cons_eq_cons.mp h
        obtain ⟨before,b,rest,rfl,hbefore,hb⟩ := ih htail
        exact ⟨a :: before,b,rest,rfl,by rw [run,hout,hbefore]; rfl,hb⟩

/-- Outputs paid for by a potential. -/
theorem length_run_le {f : σ → ℕ}
    (hstep : ∀ a ∈ as, ∀ s, (step s a).2.length + f (step s a).1 ≤ f s) :
    (run step s as).2.length ≤ f s := by
  induction as generalizing s with
  | nil => exact Nat.zero_le _
  | cons a as ih =>
    have ha := hstep a List.mem_cons_self s
    have has := ih (s := (step s a).1) fun b hb => hstep b (List.mem_cons_of_mem a hb)
    rw [run,List.length_append]
    omega

end Transducer
