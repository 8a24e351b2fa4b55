import NsPixels.Lib.ByteStream

/-!
# Sources read piece by piece

A source hands out its elements in pieces of its own choosing. What a program gets out
of it by reading exactly so many elements depends on the elements alone.
-/

universe u

/-- A source of elements of `α` with errors in `ε`. A read into a buffer of `cap` elements
returns some of the unread ones; after the last one the source has ended, or every
read fails. -/
class Source (σ : Type u) (α ε : outParam (Type u)) where
  read : ℕ → EStateM ε σ (List α)
  unread : σ → List α
  closing : σ → Option ε
  read_unread : ∀ {s : σ} {cap : ℕ}, 0 < cap → unread s ≠ [] → ∃ got s', read cap s = .ok got s' ∧
    got ≠ [] ∧ got.length ≤ cap ∧ unread s = got ++ unread s' ∧ closing s' = closing s
  read_end : ∀ {s : σ} {cap : ℕ}, unread s = [] →
    read cap s = (closing s).elim (.ok [] s) fun e => .error e s
  read_zero : ∀ {s : σ}, unread s ≠ [] → read 0 s = .ok [] s

/-- Failures of reading an exact count. -/
inductive ReadExactError (ε : Type u)
  | unexpectedEof
  | other (e : ε)

namespace EStateM.Result

variable {ε σ α : Type u}

/-- The state a computation ends in, with a value or with an error. -/
def state : EStateM.Result ε σ α → σ
  | .ok _ s => s
  | .error _ s => s

@[simp] theorem state_ok (a : α) (s : σ) :
    (EStateM.Result.ok a s : EStateM.Result ε σ α).state = s := rfl

@[simp] theorem state_error (e : ε) (s : σ) :
    (EStateM.Result.error e s : EStateM.Result ε σ α).state = s := rfl

/-- The result with its state seen through `f`. -/
def mapState {τ : Type u} (f : σ → τ) : EStateM.Result ε σ α → EStateM.Result ε τ α
  | .ok a s => .ok a (f s)
  | .error e s => .error e (f s)

/-- The result without the state. -/
def value : EStateM.Result ε σ α → Except ε α
  | .ok a _ => .ok a
  | .error e _ => .error e

end EStateM.Result

namespace EStateM

variable {ε σ α β : Type u} {s s' : σ}

theorem bind_of_ok {x : EStateM ε σ α} {f : α → EStateM ε σ β} {a : α} (h : x s = .ok a s') :
    (x >>= f) s = f a s' := by
  simp only [bind,EStateM.bind,h]

theorem bind_of_error {x : EStateM ε σ α} {f : α → EStateM ε σ β} {e : ε}
    (h : x s = .error e s') : (x >>= f) s = .error e s' := by
  simp only [bind,EStateM.bind,h]

/-- A sequence that succeeds does so in both parts. -/
theorem exists_of_bind_eq_ok {x : EStateM ε σ α} {f : α → EStateM ε σ β} {b : β} {s'' : σ}
    (h : (x >>= f) s = .ok b s'') : ∃ a s', x s = .ok a s' ∧ f a s' = .ok b s'' := by
  simp only [bind,EStateM.bind] at h
  split at h
  · next a s' hx => exact ⟨a,s',hx,h⟩
  · cases h

end EStateM

namespace Source

variable {σ α ε : Type u} [Source σ α ε] {s s' s'' : σ} {l l' tail : List α} {n : ℕ}

/-! ### What reads leave -/

/-- The states that reads lead to. -/
inductive Reached (s : σ) : σ → Prop
  | refl : Reached s s
  | step {s' : σ} (h : Reached s s') (cap : ℕ) : Reached s (read cap s').state

/-- What every read keeps is kept. -/
theorem Reached.invariant {P : σ → Prop} (hstep : ∀ s cap, P s → P (read cap s).state)
    (h : Reached s s') (hs : P s) : P s' := by
  induction h with
  | refl => exact hs
  | step _ cap ih => exact hstep _ cap ih

theorem Reached.trans (h : Reached s s') (h' : Reached s' s'') : Reached s s'' := by
  induction h' with
  | refl => exact h
  | step _ cap ih => exact .step ih cap

/-- `s'` is `s` after reads that delivered `l`. -/
structure Took (s : σ) (l : List α) (s' : σ) : Prop where
  unread : unread s = l ++ unread s'
  closing : closing s' = closing s
  reached : Reached s s'

theorem Took.refl (s : σ) : Took s [] s := ⟨rfl,rfl,.refl⟩

theorem Took.trans (h : Took s l s') (h' : Took s' l' s'') : Took s (l ++ l') s'' :=
  ⟨by rw [h.unread,h'.unread,List.append_assoc],h'.closing.trans h.closing,
    h.reached.trans h'.reached⟩

/-- The rest, once the front has been taken. -/
theorem Took.unread_eq (h : Took s l s') (hs : Source.unread s = l ++ tail) :
    Source.unread s' = tail :=
  List.append_cancel_left (h.unread.symm.trans hs)

theorem read_took {cap : ℕ} (hcap : 0 < cap) (h : unread s ≠ []) :
    ∃ got s', read cap s = .ok got s' ∧ got ≠ [] ∧ got.length ≤ cap ∧ Took s got s' := by
  obtain ⟨got,s',hread,hne,hlen,hunread,hclosing⟩ := read_unread hcap h
  have hreached := (Reached.refl : Reached s s).step cap
  rw [hread] at hreached
  exact ⟨got,s',hread,hne,hlen,hunread,hclosing,hreached⟩

/-- A read that returns took what it returned. -/
theorem took_of_read_ok {cap : ℕ} {got : List α} (h : read cap s = .ok got s') :
    got.length ≤ cap ∧ Took s got s' := by
  by_cases hnil : unread s = []
  · rw [read_end hnil] at h
    cases hc : closing s with
    | none =>
      rw [hc] at h
      obtain ⟨rfl,rfl⟩ := EStateM.Result.ok.inj h
      exact ⟨Nat.zero_le cap,.refl s⟩
    | some e =>
      rw [hc] at h
      cases h
  · rcases Nat.eq_zero_or_pos cap with rfl | hcap
    · rw [read_zero hnil] at h
      obtain ⟨rfl,rfl⟩ := EStateM.Result.ok.inj h
      exact ⟨Nat.le_refl 0,.refl s⟩
    · obtain ⟨got',s₁,hread,_,hlen,htook⟩ := read_took hcap hnil
      rw [h] at hread
      obtain ⟨rfl,rfl⟩ := EStateM.Result.ok.inj hread
      exact ⟨hlen,htook⟩

/-! ### Reading exactly -/

/-- Read until `need` more elements have been appended to `filled`. -/
def fill (need : ℕ) (filled : List α) : EStateM (ReadExactError ε) σ (List α) := fun s =>
  if _hneed : need = 0 then .ok filled s
  else
    match read need s with
    | .error e s' => .error (.other e) s'
    | .ok got s' =>
      if _hgot : got = [] then .error .unexpectedEof s'
      else fill (need - got.length) (filled ++ got) s'
termination_by need
decreasing_by
  have := List.length_pos_of_ne_nil _hgot
  omega

/-- Fill a buffer of `n` elements. -/
def readExact (n : ℕ) : EStateM (ReadExactError ε) σ (List α) := fill n []

/-- The error of reading past the end. -/
def endError (s : σ) : ReadExactError ε := (closing s).elim .unexpectedEof .other

theorem Took.endError (h : Took s l s') : endError s' = endError s := by
  rw [Source.endError,Source.endError,h.closing]

theorem fill_step {need : ℕ} (filled : List α) (hneed : 0 < need) (hne : unread s ≠ []) :
    ∃ got s', got ≠ [] ∧ got.length ≤ need ∧ Took s got s' ∧
      fill need filled s = fill (need - got.length) (filled ++ got) s' := by
  obtain ⟨got,s',hread,hgot,hlen,htook⟩ := read_took hneed hne
  refine ⟨got,s',hgot,hlen,htook,?_⟩
  rw [fill,dif_neg (Nat.ne_of_gt hneed),hread]
  exact dif_neg hgot

theorem fill_end {need : ℕ} (filled : List α) (hneed : 0 < need) (hnil : unread s = []) :
    fill need filled s = .error (endError s) s := by
  rw [fill,dif_neg (Nat.ne_of_gt hneed),read_end hnil,endError]
  cases closing s <;> rfl

/-- With enough elements the loop takes exactly those it needs. -/
theorem fill_append {bytes : List α} (filled : List α) (h : unread s = bytes ++ tail) :
    ∃ s', fill bytes.length filled s = .ok (filled ++ bytes) s' ∧ Took s bytes s' := by
  induction hn : bytes.length using Nat.strongRecOn generalizing s filled bytes with
  | ind n ih =>
    rcases Nat.eq_zero_or_pos n with rfl | hpos
    · obtain rfl := List.length_eq_zero_iff.mp hn
      exact ⟨s,by rw [fill,dif_pos rfl,List.append_nil],.refl s⟩
    · have hne : unread s ≠ [] := by
        rw [h]
        exact List.append_ne_nil_of_left_ne_nil (List.ne_nil_of_length_pos (hn ▸ hpos)) _
      obtain ⟨got,s₁,hgot,hlen,htook,hfill⟩ := fill_step filled hpos hne
      -- the piece is the front of what is needed
      have hfront : got <+: bytes :=
        List.prefix_of_prefix_length_le ⟨_,htook.unread.symm⟩ ⟨_,h.symm⟩ (hn ▸ hlen)
      obtain ⟨rest,rfl⟩ := hfront
      have hpos' := List.length_pos_of_ne_nil hgot
      rw [List.append_assoc] at h
      rw [List.length_append] at hn
      obtain ⟨s₂,hrun,htook'⟩ :=
        ih rest.length (by omega) (filled ++ got) (htook.unread_eq h) rfl
      refine ⟨s₂,?_,htook.trans htook'⟩
      rw [hfill,show n - got.length = rest.length by omega,hrun,List.append_assoc]

/-- With too few the loop takes them all and fails. -/
theorem fill_short {need : ℕ} (filled : List α) (h : (unread s).length < need) :
    ∃ s', fill need filled s = .error (endError s) s' ∧ Took s (unread s) s' := by
  induction hn : (unread s).length using Nat.strongRecOn generalizing s need filled with
  | ind n ih =>
    by_cases hnil : unread s = []
    · refine ⟨s,fill_end filled (Nat.zero_lt_of_lt h) hnil,?_⟩
      rw [hnil]
      exact .refl s
    · obtain ⟨got,s₁,hgot,hlen,htook,hfill⟩ := fill_step filled (Nat.zero_lt_of_lt h) hnil
      have hpos := List.length_pos_of_ne_nil hgot
      have hlen' := congrArg List.length htook.unread
      rw [List.length_append] at hlen'
      obtain ⟨s₂,hrun,htook'⟩ := ih (unread s₁).length (by omega) (filled ++ got)
        (show (unread s₁).length < need - got.length by omega) rfl
      refine ⟨s₂,by rw [hfill,hrun,htook.endError],?_⟩
      rw [htook.unread]
      exact htook.trans htook'

theorem readExact_append {bytes : List α} (h : unread s = bytes ++ tail) :
    ∃ s', readExact bytes.length s = .ok bytes s' ∧ Took s bytes s' := fill_append [] h

theorem readExact_short (h : (unread s).length < n) :
    ∃ s', readExact n s = .error (endError s) s' ∧ Took s (unread s) s' := fill_short [] h

/-- What was read exactly is that many elements, and they were taken. -/
theorem took_of_readExact_ok (h : readExact n s = .ok l s') : l.length = n ∧ Took s l s' := by
  by_cases hlen : n ≤ (unread s).length
  · have hwidth : ((unread s).take n).length = n := List.length_take_of_le hlen
    obtain ⟨s₁,hread,htook⟩ := readExact_append (List.take_append_drop n (unread s)).symm
    rw [hwidth,h] at hread
    obtain ⟨rfl,rfl⟩ := EStateM.Result.ok.inj hread
    exact ⟨hwidth,htook⟩
  · obtain ⟨s₁,hread,_⟩ := readExact_short (Nat.lt_of_not_le hlen)
    rw [h] at hread
    cases hread

/-- One element, if there is one. -/
theorem readExact_one {a : α} (h : unread s = a :: tail) :
    ∃ s', readExact 1 s = .ok [a] s' ∧ Took s [a] s' :=
  readExact_append (show unread s = [a] ++ tail from h)

end Source

/-! ### Byte streams -/

namespace ByteStream

variable {α ε : Type u} {s : ByteStream α ε}

theorem read_zero (h : s.unread ≠ []) : s.read 0 = (.ok [],s) := by
  obtain ⟨chunks,closing⟩ := s
  cases chunks with
  | nil => exact absurd rfl h
  | cons c rest =>
    rw [read]
    exact dif_pos (List.length_pos_of_ne_nil c.property)

instance : Source (ByteStream α ε) α ε where
  read cap s :=
    match s.read cap with
    | (.ok got,s') => .ok got s'
    | (.error e,s') => .error e s'
  unread := unread
  closing := closing
  read_unread hcap h := by
    obtain ⟨got,s',hread,hrest⟩ := read_of_unread_ne_nil hcap h
    exact ⟨got,s',by rw [hread],hrest⟩
  read_end h := by
    rename_i s cap
    rw [read_of_unread_eq_nil h]
    cases s.closing <;> rfl
  read_zero h := by rw [ByteStream.read_zero h]

end ByteStream
