import Mathlib.Data.List.Basic

/-!
# Streams delivered in chunks

The reading end of a connection. Each read takes from the first chunk only, so any
way of cutting the data into reads is some list of chunks. After the last chunk the
stream has ended, or every further read fails.
-/

/-- What a connection will still deliver; `closing` is the error of the reads after the
last chunk, `none` when they find the end of the stream. -/
structure ByteStream (α ε : Type*) where
  chunks : List { c : List α // c ≠ [] }
  closing : Option ε

namespace ByteStream

variable {α ε : Type*}

/-- All that is still to come. -/
def unread (s : ByteStream α ε) : List α := s.chunks.flatMap Subtype.val

/-- One read into a buffer of `cap` elements. No elements mean the end of the stream. -/
def read (s : ByteStream α ε) (cap : ℕ) : Except ε (List α) × ByteStream α ε :=
  match s.chunks with
  | [] =>
    match s.closing with
    | none => (.ok [],s)
    | some e => (.error e,s)
  | c :: rest =>
    if h : cap < c.val.length then
      (.ok (c.val.take cap),
        { s with chunks := ⟨c.val.drop cap,by simpa using h⟩ :: rest })
    else (.ok c.val,{ s with chunks := rest })

variable {s : ByteStream α ε} {cap : ℕ}

/-- While there is data, a read delivers some of it and keeps the rest. -/
theorem read_of_unread_ne_nil (hcap : 0 < cap) (h : s.unread ≠ []) :
    ∃ got s', s.read cap = (.ok got,s') ∧ got ≠ [] ∧ got.length ≤ cap ∧
      s.unread = got ++ s'.unread ∧ s'.closing = s.closing := by
  obtain ⟨chunks,closing⟩ := s
  cases chunks with
  | nil => exact absurd rfl h
  | cons c rest =>
    rw [read]
    by_cases hlt : cap < c.val.length
    · refine ⟨_,_,dif_pos hlt,?_,?_,?_,rfl⟩
      · rw [Ne,List.take_eq_nil_iff,not_or]
        exact ⟨Nat.ne_of_gt hcap,c.property⟩
      · exact List.length_take_le cap c.val
      · simp only [unread,List.flatMap_cons]
        rw [← List.append_assoc,List.take_append_drop]
    · exact ⟨_,_,dif_neg hlt,c.property,Nat.le_of_not_lt hlt,rfl,rfl⟩

/-- Chunks are not empty, so no data means no chunk. -/
theorem chunks_eq_nil (h : s.unread = []) : s.chunks = [] := by
  cases hc : s.chunks with
  | nil => rfl
  | cons c rest =>
    rw [unread,hc,List.flatMap_cons,List.append_eq_nil_iff] at h
    exact absurd h.1 c.property

theorem read_of_unread_eq_nil (h : s.unread = []) :
    s.read cap = match s.closing with
      | none => (.ok [],s)
      | some e => (.error e,s) := by
  rw [read,chunks_eq_nil h]

end ByteStream
