import Mathlib.Order.Basic

/-!
# Loops with a body that may leave them

One turn of the body emits labels and either goes on from a new state or leaves the
loop with a result. A run is cut off after a number of turns.
-/

namespace Loop

variable {σ ℓ ρ : Type*} (body : σ → List ℓ × (σ ⊕ ρ))

/-- At most `fuel` turns; `none` when the loop was not left. -/
def run : ℕ → σ → List ℓ × Option ρ
  | 0,_ => ([],none)
  | fuel + 1,s =>
    match body s with
    | (ls,.inr r) => (ls,some r)
    | (ls,.inl s') => (ls ++ (run fuel s').1,(run fuel s').2)

variable {body}

theorem run_of_exit {s : σ} {ls : List ℓ} {r : ρ} (h : body s = (ls,.inr r)) (fuel : ℕ) :
    run body (fuel + 1) s = (ls,some r) := by
  rw [run,h]

theorem run_of_next {s s' : σ} {ls : List ℓ} (h : body s = (ls,.inl s')) (fuel : ℕ) :
    run body (fuel + 1) s = (ls ++ (run body fuel s').1,(run body fuel s').2) := by
  rw [run,h]

/-- A loop whose turns decrease a measure is left within as many turns. -/
theorem exists_run_eq_some (Inv : σ → Prop) (measure : σ → ℕ)
    (hnext : ∀ s ls s', Inv s → body s = (ls,.inl s') → Inv s' ∧ measure s' < measure s)
    {fuel : ℕ} {s : σ} (hinv : Inv s) (hfuel : measure s < fuel) :
    ∃ r, (run body fuel s).2 = some r := by
  induction fuel generalizing s with
  | zero => omega
  | succ fuel ih =>
    cases hb : body s with
    | mk ls o =>
      cases o with
      | inr r => exact ⟨r,by rw [run_of_exit hb]⟩
      | inl s' =>
        obtain ⟨hinv',hlt⟩ := hnext s ls s' hinv hb
        obtain ⟨r,hr⟩ := ih hinv' (by omega)
        exact ⟨r,by rw [run_of_next hb,hr]⟩

/-- What holds of a cut-off run and is established turn by turn from the last turn
back holds of every run from an invariant state. -/
theorem run_rule (Inv : σ → Prop) (P : σ → List ℓ → Option ρ → Prop)
    (hcut : ∀ s, Inv s → P s [] none)
    (hexit : ∀ s ls r, Inv s → body s = (ls,.inr r) → P s ls (some r))
    (hnext : ∀ s ls s', Inv s → body s = (ls,.inl s') →
      Inv s' ∧ ∀ ls' o, P s' ls' o → P s (ls ++ ls') o)
    (fuel : ℕ) {s : σ} (hinv : Inv s) : P s (run body fuel s).1 (run body fuel s).2 := by
  induction fuel generalizing s with
  | zero => exact hcut s hinv
  | succ fuel ih =>
    cases hb : body s with
    | mk ls o =>
      cases o with
      | inr r =>
        rw [run_of_exit hb]
        exact hexit s ls r hinv hb
      | inl s' =>
        obtain ⟨hinv',hP⟩ := hnext s ls s' hinv hb
        rw [run_of_next hb]
        exact hP _ _ (ih hinv')

section Simulation

variable {σ' ρ' : Type*} {body' : σ' → List ℓ × (σ' ⊕ ρ')}

/-- Two turns with the same labels that go on from related states, or leave with related
results. -/
inductive Goes (R : σ → σ' → Prop) (Q : ρ → ρ' → Prop) :
    List ℓ × (σ ⊕ ρ) → List ℓ × (σ' ⊕ ρ') → Prop
  | next {ls : List ℓ} {s : σ} {s' : σ'} (h : R s s') : Goes R Q (ls,.inl s) (ls,.inl s')
  | exit {ls : List ℓ} {r : ρ} {r' : ρ'} (h : Q r r') : Goes R Q (ls,.inr r) (ls,.inr r')

/-- Loops whose turns go along with each other do so in whole runs. -/
theorem run_simulation {R : σ → σ' → Prop} {Q : ρ → ρ' → Prop}
    (hturn : ∀ s s', R s s' → Goes R Q (body s) (body' s')) (fuel : ℕ) {s : σ} {s' : σ'}
    (h : R s s') : (run body fuel s).1 = (run body' fuel s').1 ∧
      Option.Rel Q (run body fuel s).2 (run body' fuel s').2 := by
  induction fuel generalizing s s' with
  | zero => exact ⟨rfl,.none⟩
  | succ fuel ih =>
    have hgoes := hturn s s' h
    generalize hb : body s = b at hgoes
    generalize hb' : body' s' = b' at hgoes
    cases hgoes with
    | next hnext =>
      obtain ⟨hlabels,hleft⟩ := ih hnext
      rw [run_of_next hb,run_of_next hb',hlabels]
      exact ⟨rfl,hleft⟩
    | exit hexit =>
      rw [run_of_exit hb,run_of_exit hb']
      exact ⟨rfl,.some hexit⟩

end Simulation

end Loop
