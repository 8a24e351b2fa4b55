import Mathlib.Data.Fintype.EquivFin
import Mathlib.Logic.Function.Basic

/-!
# Tokens that circulate

Places hold at most one token each. When every token lies in exactly one place,
moving one into an empty place keeps that so, and there are no more occupied places
than tokens.
-/

namespace Tokens

variable {P T : Type*}

/-- Every token lies in exactly one place. -/
def Conserved (slots : P → Option T) : Prop := ∀ t, ∃! p, slots p = some t

/-- Take what lies in `p` and put it into `q`, over whatever was there. -/
def move [DecidableEq P] (slots : P → Option T) (p q : P) : P → Option T :=
  Function.update (Function.update slots q (slots p)) p none

theorem move_apply [DecidableEq P] (slots : P → Option T) (p q r : P) :
    move slots p q r = if r = p then none else if r = q then slots p else slots r := by
  rw [move,Function.update_apply,Function.update_apply]

namespace Conserved

variable {slots : P → Option T} {p q : P} {t : T}

theorem of_eq {slots' : P → Option T} (h : Conserved slots) (he : slots' = slots) :
    Conserved slots' := he ▸ h

theorem eq_of_eq_some (h : Conserved slots) (hp : slots p = some t) (hq : slots q = some t) :
    p = q := (h t).unique hp hq

/-- Moving a token into an empty place loses and copies nothing. -/
theorem move [DecidableEq P] (h : Conserved slots) (hpq : p ≠ q) (hq : slots q = none) :
    Conserved (move slots p q) := by
  intro t
  obtain ⟨r,hr,huniq⟩ := h t
  dsimp only at hr huniq
  have hrq : r ≠ q := by
    rintro rfl
    rw [hq] at hr
    cases hr
  by_cases hrp : r = p
  · -- the token that moves
    subst hrp
    refine ⟨q,by simp only [move_apply,hpq.symm,if_false,if_true,hr],?_⟩
    intro p' hp'
    by_contra hne
    simp only [move_apply,hne,if_false] at hp'
    split at hp'
    · cases hp'
    · next hp'r => exact hp'r (huniq p' hp')
  · refine ⟨r,by simp only [move_apply,hrp,hrq,if_false,hr],?_⟩
    intro p' hp'
    simp only [move_apply] at hp'
    split at hp'
    · cases hp'
    · split at hp'
      · -- what was moved into `q` is another token
        exact absurd (huniq p hp').symm hrp
      · exact huniq p' hp'

/-- There are no more occupied places than tokens. -/
theorem card_le [Fintype T] (h : Conserved slots) {places : Finset P}
    (hplaces : ∀ p ∈ places, (slots p).isSome) : places.card ≤ Fintype.card T := by
  have hmaps : Set.MapsTo slots places
      (Finset.univ.map Function.Embedding.some : Finset (Option T)) := by
    intro p hp
    obtain ⟨t,ht⟩ := Option.isSome_iff_exists.mp (hplaces p hp)
    simp [ht]
  have hinj : Set.InjOn slots places := by
    intro p hp q hq hpq
    obtain ⟨t,ht⟩ := Option.isSome_iff_exists.mp (hplaces p hp)
    exact h.eq_of_eq_some ht (hpq ▸ ht)
  simpa using Finset.card_le_card_of_injOn slots hmaps hinj

/-- With two tokens no three places are occupied. -/
theorem eq_of_card_two [Fintype T] [DecidableEq P] (h : Conserved slots)
    (hcard : Fintype.card T = 2) (base : P) (hbase : (slots base).isSome)
    (hp : (slots p).isSome) (hq : (slots q).isSome) (hpb : p ≠ base) (hqb : q ≠ base) :
    p = q := by
  by_contra hpq
  have hle : Finset.card {base,p,q} ≤ Fintype.card T := h.card_le (by
    intro r hr
    simp only [Finset.mem_insert,Finset.mem_singleton] at hr
    obtain rfl | rfl | rfl := hr
    · exact hbase
    · exact hp
    · exact hq)
  rw [hcard,Finset.card_eq_three.mpr ⟨base,p,q,hpb.symm,hqb.symm,hpq,rfl⟩] at hle
  omega

theorem eq_none_of_card_two [Fintype T] [DecidableEq P] (h : Conserved slots)
    (hcard : Fintype.card T = 2) (base : P) (hbase : (slots base).isSome)
    (hp : (slots p).isSome) (hpb : p ≠ base) (hqb : q ≠ base) (hpq : p ≠ q) : slots q = none := by
  by_contra hne
  exact hpq (h.eq_of_card_two hcard base hbase hp (Option.isSome_iff_ne_none.mpr hne) hpb hqb)

/-- One place does not have all of several tokens. -/
theorem exists_occupied_ne [Fintype T] (h : Conserved slots) (hcard : 1 < Fintype.card T)
    (base : P) : ∃ p, p ≠ base ∧ (slots p).isSome := by
  obtain ⟨t,ht⟩ : ∃ t, slots base ≠ some t := by
    obtain ⟨t,u,htu⟩ := Fintype.exists_pair_of_one_lt_card hcard
    by_cases hbase : slots base = some t
    · exact ⟨u,fun hu => htu (Option.some.inj (hbase.symm.trans hu))⟩
    · exact ⟨t,hbase⟩
  obtain ⟨p,hp,_⟩ := h t
  refine ⟨p,?_,by rw [hp]; rfl⟩
  rintro rfl
  exact ht hp

end Conserved

end Tokens
