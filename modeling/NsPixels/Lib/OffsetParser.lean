import Mathlib.Computability.Language

/-!
# Parsers that move an offset

A parser over a buffer takes an offset into it and returns the offset behind what
it accepted. It may reject the buffer, and it may index out of range. `Accepts`
says that it takes exactly the words of a language and never does the latter.
-/

namespace OffsetParser

/-- Why a parser returned no offset. -/
inductive Stop
  | rejected
  | outOfRange
deriving DecidableEq, Repr

variable {α : Type}

/-- One element by index. -/
def index (buf : List α) (i : ℕ) : Except Stop α :=
  match buf[i]? with
  | none => .error .outOfRange
  | some a => .ok a

/-- The rest of the buffer from an offset on. -/
def sliceFrom (buf : List α) (p : ℕ) : Except Stop (List α) :=
  if p ≤ buf.length then .ok (buf.drop p) else .error .outOfRange

/-- The buffer up to an offset. -/
def sliceTo (buf : List α) (p : ℕ) : Except Stop (List α) :=
  if p ≤ buf.length then .ok (buf.take p) else .error .outOfRange

theorem sliceFrom_of_le {buf : List α} {p : ℕ} (h : p ≤ buf.length) :
    sliceFrom buf p = .ok (buf.drop p) := if_pos h

/-- From an offset in the buffer, `f` moves over exactly the words of `L`. -/
structure Accepts (f : List α → ℕ → Except Stop ℕ) (L : Language α) : Prop where
  inRange : ∀ buf p, p ≤ buf.length → f buf p ≠ .error .outOfRange
  ok_iff : ∀ buf p q, p ≤ buf.length →
    (f buf p = .ok q ↔ ∃ w ∈ L, w <+: buf.drop p ∧ q = p + w.length)

theorem append_prefix_drop_iff {buf v w : List α} {p : ℕ} :
    v ++ w <+: buf.drop p ↔ v <+: buf.drop p ∧ w <+: buf.drop (p + v.length) := by
  constructor
  · intro h
    have hv := (List.prefix_append v w).trans h
    rw [List.prefix_iff_eq_append.mp hv |>.symm,List.prefix_append_right_inj,List.drop_drop] at h
    exact ⟨hv,h⟩
  · rintro ⟨hv,hw⟩
    rw [List.prefix_iff_eq_append.mp hv |>.symm,List.prefix_append_right_inj,List.drop_drop]
    exact hw

theorem add_length_le_of_isPrefix {buf w : List α} {p : ℕ} (hp : p ≤ buf.length)
    (h : w <+: buf.drop p) : p + w.length ≤ buf.length := by
  have := h.length_le
  rw [List.length_drop] at this
  omega

variable {f g : List α → ℕ → Except Stop ℕ} {L M : Language α}

theorem Accepts.le_length (h : Accepts f L) {buf : List α} {p q : ℕ} (hp : p ≤ buf.length)
    (hq : f buf p = .ok q) : q ≤ buf.length := by
  obtain ⟨w,_,hw,rfl⟩ := (h.ok_iff buf p q hp).mp hq
  exact add_length_le_of_isPrefix hp hw

/-- One parser after another moves over concatenations. -/
theorem Accepts.seq (hf : Accepts f L) (hg : Accepts g M) :
    Accepts (fun buf p => f buf p >>= g buf) (L * M) := by
  constructor
  · intro buf p hp
    cases h : f buf p with
    | error e =>
      rintro he
      exact hf.inRange buf p hp (h.trans he)
    | ok q => exact hg.inRange buf q (hf.le_length hp h)
  · intro buf p q hp
    constructor
    · intro h
      cases h1 : f buf p with
      | error e =>
        rw [h1] at h
        cases h
      | ok q1 =>
        rw [h1] at h
        obtain ⟨w2,hw2,hp2,rfl⟩ := (hg.ok_iff buf q1 q (hf.le_length hp h1)).mp h
        obtain ⟨w1,hw1,hp1,rfl⟩ := (hf.ok_iff buf p q1 hp).mp h1
        refine ⟨w1 ++ w2,Language.append_mem_mul hw1 hw2,append_prefix_drop_iff.mpr ⟨hp1,hp2⟩,?_⟩
        rw [List.length_append,Nat.add_assoc]
    · rintro ⟨w,hw,hpre,rfl⟩
      obtain ⟨w1,hw1,w2,hw2,rfl⟩ := Language.mem_mul.mp hw
      obtain ⟨hp1,hp2⟩ := append_prefix_drop_iff.mp hpre
      have h1 := (hf.ok_iff buf p _ hp).mpr ⟨w1,hw1,hp1,rfl⟩
      have h2 := (hg.ok_iff buf _ _ (hf.le_length hp h1)).mpr ⟨w2,hw2,hp2,rfl⟩
      rw [List.length_append,← Nat.add_assoc]
      change f buf p >>= g buf = _
      rw [h1]
      exact h2

/-- A field that is there or not. -/
def optional (present : Prop) [Decidable present] (f : List α → ℕ → Except Stop ℕ)
    (buf : List α) (p : ℕ) : Except Stop ℕ :=
  if present then f buf p else .ok p

theorem Accepts.optional (hf : Accepts f L) (present : Prop) [Decidable present] :
    Accepts (optional present f) (if present then L else 1) := by
  by_cases hc : present
  · rw [show OffsetParser.optional present f = f from funext₂ fun _ _ => if_pos hc,if_pos hc]
    exact hf
  · rw [show OffsetParser.optional present f = fun _ p => .ok p from
      funext₂ fun _ _ => if_neg hc,if_neg hc]
    refine ⟨fun buf p _ h => ?_,fun buf p q _ => ?_⟩
    · cases h
    · simp [Language.mem_one,eq_comm]

/-- Skip `n` elements. -/
def skip (n : ℕ) (buf : List α) (p : ℕ) : Except Stop ℕ :=
  if buf.length < p + n then .error .rejected else .ok (p + n)

theorem accepts_skip (n : ℕ) : Accepts (skip n) ({w | w.length = n} : Set (List α)) := by
  refine ⟨fun buf p _ h => ?_,fun buf p q hp => ?_⟩
  · rw [skip] at h
    split at h <;> cases h
  · rw [skip]
    constructor
    · intro h
      split at h
      · cases h
      · next hlt =>
        cases h
        have hlen : ((buf.drop p).take n).length = n := by
          rw [List.length_take,List.length_drop]
          omega
        exact ⟨(buf.drop p).take n,hlen,List.take_prefix n _,by rw [hlen]⟩
    · rintro ⟨w,rfl,hw,rfl⟩
      rw [if_neg (Nat.not_lt.mpr (add_length_le_of_isPrefix hp hw))]

/-- Skip everything up to and including the first `a`. -/
def skipThrough [DecidableEq α] (a : α) (buf : List α) (p : ℕ) : Except Stop ℕ := do
  let rest ← sliceFrom buf p
  match rest.findIdx? (· = a) with
  | none => .error .rejected
  | some i => .ok (p + (i + 1))

theorem findIdx?_eq_some_iff_isPrefix [DecidableEq α] {a : α} {l : List α} {i : ℕ} :
    l.findIdx? (· = a) = some i ↔ ∃ w, a ∉ w ∧ w.length = i ∧ w ++ [a] <+: l := by
  induction l generalizing i with
  | nil => simp
  | cons b l ih =>
    rw [List.findIdx?_cons]
    by_cases hb : b = a
    · subst hb
      simp only [decide_true,if_true,Option.some.injEq]
      constructor
      · rintro rfl
        exact ⟨[],List.not_mem_nil,rfl,by simp⟩
      · rintro ⟨w,hw,rfl,hpre⟩
        cases w with
        | nil => rfl
        | cons c w =>
          rw [List.cons_append,List.cons_prefix_cons] at hpre
          exact absurd (hpre.1 ▸ List.mem_cons_self) hw
    · simp only [hb,decide_false,Bool.false_eq_true,if_false,Option.map_eq_some_iff]
      constructor
      · rintro ⟨j,hj,rfl⟩
        obtain ⟨w,hw,hlen,hpre⟩ := ih.mp hj
        refine ⟨b :: w,?_,by rw [List.length_cons,hlen],?_⟩
        · rw [List.mem_cons,not_or]
          exact ⟨Ne.symm hb,hw⟩
        · rw [List.cons_append,List.cons_prefix_cons]
          exact ⟨rfl,hpre⟩
      · rintro ⟨w,hw,rfl,hpre⟩
        cases w with
        | nil =>
          rw [List.nil_append,List.cons_prefix_cons] at hpre
          exact absurd hpre.1.symm hb
        | cons c w =>
          rw [List.cons_append,List.cons_prefix_cons] at hpre
          exact ⟨w.length,ih.mpr ⟨w,fun h => hw (List.mem_cons_of_mem _ h),rfl,hpre.2⟩,rfl⟩

theorem accepts_skipThrough [DecidableEq α] (a : α) :
    Accepts (skipThrough a) ({w | ∃ s, a ∉ s ∧ w = s ++ [a]} : Set (List α)) := by
  have hskip : ∀ {buf : List α} {p : ℕ}, p ≤ buf.length → skipThrough a buf p =
      match (buf.drop p).findIdx? (· = a) with
      | none => .error .rejected
      | some i => .ok (p + (i + 1)) := by
    intro buf p hp
    rw [skipThrough,sliceFrom_of_le hp]
    rfl
  refine ⟨fun buf p hp h => ?_,fun buf p q hp => ?_⟩
  · rw [hskip hp] at h
    split at h <;> cases h
  · rw [hskip hp]
    constructor
    · intro h
      split at h
      · cases h
      · next i hi =>
        cases h
        obtain ⟨w,hw,hlen,hpre⟩ := findIdx?_eq_some_iff_isPrefix.mp hi
        exact ⟨w ++ [a],⟨w,hw,rfl⟩,hpre,by simp [hlen]⟩
    · rintro ⟨w,⟨s,hs,rfl⟩,hpre,rfl⟩
      rw [findIdx?_eq_some_iff_isPrefix.mpr ⟨s,hs,rfl,hpre⟩,List.length_append]
      rfl

end OffsetParser
