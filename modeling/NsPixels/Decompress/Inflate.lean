import NsPixels.Decompress
import NsPixels.Lib.Loop

/-!
# The inflate loop

The compressed body is handed to an inflater call by call, until it signals the end
of the stream, fails, makes no progress or has filled the output buffer. The
inflater is a parameter.
-/

namespace NsPixels.Decompress

open OffsetParser

/-- The flush values that are passed to the inflater. -/
inductive MZFlush
  | none
  | finish
deriving DecidableEq, Repr

inductive MZStatus
  | ok
  | streamEnd
  | needDict
deriving DecidableEq, Repr

/-- What one call of the inflater reports. -/
structure StreamResult (ε : Type) where
  bytesConsumed : ℕ
  bytesWritten : ℕ
  status : Except ε MZStatus

/-- An inflater works on its state, the input and the output slice, which it returns
with its new contents. -/
abbrev Inflater (σ ε : Type) :=
  σ → List UInt8 → List UInt8 → MZFlush → StreamResult ε × σ × List UInt8

/-- The inflater stays within what it is given. -/
structure Lawful {σ ε : Type} (inflate : Inflater σ ε) : Prop where
  consumed_le : ∀ state input out flush,
    (inflate state input out flush).1.bytesConsumed ≤ input.length
  written_le : ∀ state input out flush,
    (inflate state input out flush).1.bytesWritten ≤ out.length
  length_out : ∀ state input out flush,
    (inflate state input out flush).2.2.length = out.length

inductive Error (ε : Type)
  | badGzipHeader
  | overflow
  | inflate (e : ε)
  | notUtf8

structure Decompressor (σ : Type) where
  state : σ
  buf : List UInt8

/-- One call of the inflater: what it was given, where its output slice began, what
it reported and what it wrote. -/
structure Call (ε : Type) where
  input : List UInt8
  offset : ℕ
  flush : MZFlush
  result : StreamResult ε
  chunk : List UInt8

/-- The variables of the loop. -/
structure LoopState (σ : Type) where
  state : σ
  buf : List UInt8
  input : List UInt8
  written : ℕ

/-- How the loop is left. -/
inductive Exit (ε : Type)
  | finished
  | overflow
  | failed (e : ε)
  | outOfRange

variable {σ ε : Type} (inflate : Inflater σ ε)

/-- The call of one turn and the advance of both cursors. -/
def turn (s : LoopState σ) : Except Stop (Call ε × LoopState σ) := do
  let last := s.input.isEmpty
  let flush := if last then MZFlush.finish else MZFlush.none
  let out ← sliceFrom s.buf s.written
  let (res,state,out') := inflate s.state s.input out flush
  let input ← sliceFrom s.input res.bytesConsumed
  return ({ input := s.input, offset := s.written, flush := flush, result := res,
            chunk := out'.take res.bytesWritten },
    { state := state, buf := s.buf.take s.written ++ out', input := input,
      written := s.written + res.bytesWritten })

/-- One turn of the loop. -/
def loopBody (s : LoopState σ) : List (Call ε) × (LoopState σ ⊕ (Exit ε × LoopState σ)) :=
  if s.written = s.buf.length then ([],.inr (.overflow,s))
  else
    match turn inflate s with
    | .error _ => ([],.inr (.outOfRange,s))
    | .ok (call,s') =>
      match call.result.status with
      | .ok .streamEnd => ([call],.inr (.finished,s'))
      | .ok _ =>
        if call.result.bytesWritten = 0 ∧ call.result.bytesConsumed = 0 then
          ([call],.inr (.finished,s'))
        else ([call],.inl s')
      | .error e => ([call],.inr (.failed e,s'))

/-- What `inflateGzip` comes to: a result, or the panic of a slice out of range. -/
inductive Outcome (ε : Type)
  | returned (r : Except (Error ε) String)
  | outOfRange

/-- The result behind the loop. -/
def conclude (s : LoopState σ) : Exit ε → Outcome ε
  | .overflow => .returned (.error .overflow)
  | .failed e => .returned (.error (.inflate e))
  | .outOfRange => .outOfRange
  | .finished =>
    match sliceTo s.buf s.written with
    | .error _ => .outOfRange
    | .ok bytes =>
      match String.fromUTF8? ⟨bytes.toArray⟩ with
      | some text => .returned (.ok text)
      | none => .returned (.error .notUtf8)

/-- Strip the header from `payload` and inflate the rest into the buffer. With the
calls it makes; `none` when the loop has not ended after `fuel` turns. -/
def inflateGzip (reset : σ → σ) (fuel : ℕ) (d : Decompressor σ) (payload : List UInt8) :
    List (Call ε) × Option (Outcome ε × Decompressor σ) :=
  match body payload with
  | .error .rejected => ([],some (.returned (.error .badGzipHeader),d))
  | .error .outOfRange => ([],some (.outOfRange,d))
  | .ok input =>
    let start : LoopState σ :=
      { state := reset d.state, buf := d.buf, input := input, written := 0 }
    let (calls,left) := Loop.run (loopBody inflate) fuel start
    (calls,left.map fun (exit,s) => (conclude s exit,{ state := s.state, buf := s.buf }))

/-! ### One turn -/

/-- The loop has not written past its buffer. -/
def LoopState.Within (s : LoopState σ) : Prop := s.written ≤ s.buf.length

/-- What a call and the state behind it have to do with the state before. -/
structure Turns (s : LoopState σ) (call : Call ε) (s' : LoopState σ) : Prop where
  input : call.input = s.input
  offset : call.offset = s.written
  room : s.written < s.buf.length
  flush : call.flush = .finish ↔ s.input = []
  consumed : call.result.bytesConsumed ≤ s.input.length
  written : s.written + call.result.bytesWritten ≤ s.buf.length
  chunk : call.chunk.length = call.result.bytesWritten
  rest : s'.input = s.input.drop call.result.bytesConsumed
  advance : s'.written = s.written + call.result.bytesWritten
  buf_length : s'.buf.length = s.buf.length
  buf : s'.buf.take s'.written = s.buf.take s.written ++ call.chunk

variable {inflate} {s : LoopState σ}

/-- A call within the buffer takes no slice out of range. -/
theorem turns_of_lawful (hl : Lawful inflate) (hs : s.Within) (hroom : s.written ≠ s.buf.length) :
    ∃ call s', turn inflate s = .ok (call,s') ∧ Turns s call s' := by
  obtain ⟨flush,hflush⟩ : ∃ f, f = if s.input.isEmpty then MZFlush.finish else MZFlush.none :=
    ⟨_,rfl⟩
  have hlen : (s.buf.drop s.written).length = s.buf.length - s.written := List.length_drop
  have hpre : (s.buf.take s.written).length = s.written := List.length_take_of_le hs
  have hc := hl.consumed_le s.state s.input (s.buf.drop s.written) flush
  have hw := hl.written_le s.state s.input (s.buf.drop s.written) flush
  have ho := hl.length_out s.state s.input (s.buf.drop s.written) flush
  rcases hr : inflate s.state s.input (s.buf.drop s.written) flush with ⟨res,state,out'⟩
  rw [hr] at hc hw ho
  dsimp only at hc hw ho
  rw [LoopState.Within] at hs
  refine ⟨⟨s.input,s.written,flush,res,out'.take res.bytesWritten⟩,
    ⟨state,s.buf.take s.written ++ out',s.input.drop res.bytesConsumed,
      s.written + res.bytesWritten⟩,?_,?_⟩
  · simp only [turn,bind,Except.bind,sliceFrom_of_le hs,← hflush,hr,sliceFrom_of_le hc]
    rfl
  · constructor
    · rfl
    · rfl
    · exact lt_of_le_of_ne hs hroom
    · change flush = .finish ↔ s.input = []
      rw [hflush]
      cases s.input <;> simp
    · exact hc
    · change s.written + res.bytesWritten ≤ s.buf.length
      omega
    · exact List.length_take_of_le (by omega)
    · rfl
    · rfl
    · rw [List.length_append,hpre]
      omega
    · change (s.buf.take s.written ++ out').take (s.written + res.bytesWritten) = _
      rw [List.take_append,hpre,Nat.add_sub_cancel_left,List.take_of_length_le (by omega)]

/-- The call neither ended the stream nor failed, and it moved one of the cursors. -/
def Call.GoesOn (c : Call ε) : Prop :=
  (∃ status, c.result.status = .ok status ∧ status ≠ .streamEnd) ∧
    0 < c.result.bytesWritten + c.result.bytesConsumed

/-- The call ended the stream or made no progress. -/
def Call.Stops (c : Call ε) : Prop :=
  c.result.status = .ok .streamEnd ∨ (∃ status, c.result.status = .ok status) ∧
    c.result.bytesWritten = 0 ∧ c.result.bytesConsumed = 0

/-- The ways in which a turn of the loop can go. -/
inductive BodyGoes (s : LoopState σ) : List (Call ε) × (LoopState σ ⊕ (Exit ε × LoopState σ)) → Prop
  | overflow (hfull : s.written = s.buf.length) : BodyGoes s ([],.inr (.overflow,s))
  | finished {call : Call ε} {s' : LoopState σ} (ht : Turns s call s') (hstops : call.Stops) :
      BodyGoes s ([call],.inr (.finished,s'))
  | failed {call : Call ε} {s' : LoopState σ} (e : ε) (ht : Turns s call s')
      (hstatus : call.result.status = .error e) : BodyGoes s ([call],.inr (.failed e,s'))
  | again {call : Call ε} {s' : LoopState σ} (ht : Turns s call s') (hgoes : call.GoesOn) :
      BodyGoes s ([call],.inl s')

theorem bodyGoes (hl : Lawful inflate) (hs : s.Within) : BodyGoes s (loopBody inflate s) := by
  rw [loopBody]
  by_cases hfull : s.written = s.buf.length
  · rw [if_pos hfull]
    exact .overflow hfull
  · rw [if_neg hfull]
    obtain ⟨call,s',hturn,ht⟩ := turns_of_lawful hl hs hfull
    simp only [hturn]
    cases hst : call.result.status with
    | error e => exact .failed e ht hst
    | ok status =>
      have hgo : status ≠ .streamEnd →
          BodyGoes s (if call.result.bytesWritten = 0 ∧ call.result.bytesConsumed = 0 then
            ([call],.inr (.finished,s')) else ([call],.inl s')) := by
        intro hne
        split
        · next hstuck => exact .finished ht (.inr ⟨⟨status,hst⟩,hstuck⟩)
        · next hprogress => exact .again ht ⟨⟨status,hst,hne⟩,by omega⟩
      cases status with
      | streamEnd => exact .finished ht (.inl hst)
      | ok => exact hgo (by decide)
      | needDict => exact hgo (by decide)

/-! ### A whole run -/

/-- A call that is given all of `input` and the buffer from `written` on. -/
structure Call.Takes (c : Call ε) (input : List UInt8) (written bufLen : ℕ) : Prop where
  input_eq : c.input = input
  offset_eq : c.offset = written
  room : written < bufLen
  flush_iff : c.flush = .finish ↔ input = []
  consumed_le : c.result.bytesConsumed ≤ input.length
  written_le : written + c.result.bytesWritten ≤ bufLen
  length_chunk : c.chunk.length = c.result.bytesWritten

/-- Calls that take up the input and the buffer where the call before left them. -/
def Chained (input : List UInt8) (written bufLen : ℕ) : List (Call ε) → Prop
  | [] => True
  | c :: cs =>
    c.Takes input written bufLen ∧
      Chained (input.drop c.result.bytesConsumed) (written + c.result.bytesWritten) bufLen cs

/-- The bytes that calls consume. -/
def consumed (calls : List (Call ε)) : ℕ := (calls.map (·.result.bytesConsumed)).sum

/-- The bytes that calls write. -/
def written (calls : List (Call ε)) : ℕ := (calls.map (·.result.bytesWritten)).sum

/-- How the calls of a run fit its exit: all but the last go on. -/
def Exit.Fits (calls : List (Call ε)) : Exit ε → Prop
  | .overflow => ∀ c ∈ calls, c.GoesOn
  | .failed e => ∃ init c, calls = init ++ [c] ∧ (∀ d ∈ init, d.GoesOn) ∧ c.result.status = .error e
  | .finished => ∃ init c, calls = init ++ [c] ∧ (∀ d ∈ init, d.GoesOn) ∧ c.Stops
  | .outOfRange => False

theorem Exit.Fits.cons {calls : List (Call ε)} {exit : Exit ε} (h : exit.Fits calls) {c : Call ε}
    (hc : c.GoesOn) : exit.Fits (c :: calls) := by
  have hall : ∀ {init : List (Call ε)}, (∀ d ∈ init, d.GoesOn) → ∀ d ∈ c :: init, d.GoesOn := by
    intro init hinit d hd
    obtain rfl | hd := List.mem_cons.mp hd
    · exact hc
    · exact hinit d hd
  cases exit with
  | overflow => exact hall h
  | failed e | finished =>
    obtain ⟨init,last,rfl,hinit,hlast⟩ := h
    exact ⟨c :: init,last,rfl,hall hinit,hlast⟩
  | outOfRange => exact h

/-- What a run from `s` leaves, in terms of its calls. -/
structure Leaves (s : LoopState σ) (calls : List (Call ε)) (exit : Exit ε) (s' : LoopState σ) :
    Prop where
  fits : exit.Fits calls
  within : s'.Within
  buf_length : s'.buf.length = s.buf.length
  advance : s'.written = s.written + written calls
  buf : s'.buf.take s'.written = s.buf.take s.written ++ calls.flatMap Call.chunk
  overflow : exit = .overflow → s'.written = s'.buf.length

theorem Turns.within {call : Call ε} {s' : LoopState σ} (ht : Turns s call s') : s'.Within := by
  rw [LoopState.Within,ht.advance,ht.buf_length]
  exact ht.written

theorem Turns.chained {call : Call ε} {s' : LoopState σ} (ht : Turns s call s')
    {calls : List (Call ε)} (h : Chained s'.input s'.written s.buf.length calls) :
    Chained s.input s.written s.buf.length (call :: calls) := by
  rw [ht.rest,ht.advance] at h
  exact ⟨⟨ht.input,ht.offset,ht.room,ht.flush,ht.consumed,ht.written,ht.chunk⟩,h⟩

theorem Turns.leaves {call : Call ε} {s' : LoopState σ} {exit : Exit ε} (ht : Turns s call s')
    (hfits : exit.Fits [call]) (ho : exit ≠ .overflow) : Leaves s [call] exit s' where
  fits := hfits
  within := ht.within
  buf_length := ht.buf_length
  advance := by rw [ht.advance]; simp [NsPixels.Decompress.written]
  buf := by rw [ht.buf]; simp
  overflow := fun h => absurd h ho

theorem Leaves.cons {call : Call ε} {s₁ s₂ : LoopState σ} {calls : List (Call ε)} {exit : Exit ε}
    (h : Leaves s₁ calls exit s₂) (ht : Turns s call s₁)
    (hgoes : call.GoesOn) : Leaves s (call :: calls) exit s₂ where
  fits := h.fits.cons hgoes
  within := h.within
  buf_length := h.buf_length.trans ht.buf_length
  advance := by
    rw [h.advance,ht.advance,Nat.add_assoc]
    simp [NsPixels.Decompress.written]
  buf := by rw [h.buf,ht.buf,List.append_assoc,List.flatMap_cons]
  overflow := h.overflow

/-- Every run of the loop chains its calls and, once left, keeps the accounts. -/
theorem loop_accounts (hl : Lawful inflate) (fuel : ℕ) (hs : s.Within) :
    Chained s.input s.written s.buf.length (Loop.run (loopBody inflate) fuel s).1 ∧
      ∀ exit s', (Loop.run (loopBody inflate) fuel s).2 = some (exit,s') →
        Leaves s (Loop.run (loopBody inflate) fuel s).1 exit s' := by
  refine Loop.run_rule LoopState.Within
    (fun s calls left => Chained s.input s.written s.buf.length calls ∧
      ∀ exit s', left = some (exit,s') → Leaves s calls exit s') ?_ ?_ ?_ fuel hs
  · intro s _
    exact ⟨trivial,fun _ _ h => nomatch h⟩
  · intro s ls r hs hb
    have hg := bodyGoes hl hs
    rw [hb] at hg
    cases hg with
    | overflow hfull =>
      refine ⟨trivial,fun exit s' h => ?_⟩
      cases h
      exact ⟨nofun,hs,rfl,rfl,by simp,fun _ => hfull⟩
    | finished ht hstops =>
      refine ⟨ht.chained trivial,fun exit s' h => ?_⟩
      cases h
      exact ht.leaves ⟨[],_,rfl,nofun,hstops⟩ nofun
    | failed e ht hstatus =>
      refine ⟨ht.chained trivial,fun exit s' h => ?_⟩
      cases h
      exact ht.leaves ⟨[],_,rfl,nofun,hstatus⟩ nofun
  · intro s ls s' hs hb
    have hg := bodyGoes hl hs
    rw [hb] at hg
    cases hg with
    | again ht hgoes =>
      refine ⟨ht.within,fun ls' o ⟨hch,hle⟩ => ⟨ht.chained ?_,fun exit s'' ho => ?_⟩⟩
      · rwa [ht.buf_length] at hch
      · exact (hle exit s'' ho).cons ht hgoes

/-- The loop is left: a turn that goes on has moved one of the cursors. -/
theorem loop_ends (hl : Lawful inflate) {fuel : ℕ} (hs : s.Within)
    (hfuel : s.input.length + (s.buf.length - s.written) < fuel) :
    ∃ left, (Loop.run (loopBody inflate) fuel s).2 = some left := by
  refine Loop.exists_run_eq_some LoopState.Within
    (fun s => s.input.length + (s.buf.length - s.written)) (fun s ls s' hs hb => ?_) hs hfuel
  have hg := bodyGoes hl hs
  rw [hb] at hg
  cases hg with
  | again ht hgoes =>
    refine ⟨ht.within,?_⟩
    have hprogress := hgoes.2
    have hc := ht.consumed
    have hw := ht.written
    rw [ht.rest,ht.advance,ht.buf_length,List.length_drop]
    omega

/-! ### The accounts of `inflateGzip` -/

/-- A call of a chain, in terms of the calls before it. -/
theorem Chained.at_call {input : List UInt8} {w bufLen : ℕ} {pre post : List (Call ε)} {c : Call ε}
    (h : Chained input w bufLen (pre ++ c :: post)) :
    consumed pre ≤ input.length ∧ c.Takes (input.drop (consumed pre)) (w + written pre) bufLen ∧
      Chained (c.input.drop c.result.bytesConsumed) (c.offset + c.result.bytesWritten) bufLen
        post := by
  induction pre generalizing input w with
  | nil =>
    obtain ⟨ht,h⟩ := h
    refine ⟨Nat.zero_le _,ht,?_⟩
    rwa [ht.input_eq,ht.offset_eq]
  | cons d pre ih =>
    obtain ⟨ht,h⟩ := h
    obtain ⟨hle,hc,hpost⟩ := ih h
    have hcons : consumed (d :: pre) = d.result.bytesConsumed + consumed pre := by simp [consumed]
    have hwr : written (d :: pre) = d.result.bytesWritten + written pre := by simp [written]
    have hd := ht.consumed_le
    rw [List.length_drop] at hle
    rw [List.drop_drop,Nat.add_assoc] at hc
    rw [hcons,hwr]
    exact ⟨by omega,hc,hpost⟩

/-- Without input every call finishes. -/
theorem Chained.finish {w bufLen : ℕ} {calls : List (Call ε)} (h : Chained [] w bufLen calls)
    {c : Call ε} (hc : c ∈ calls) : c.flush = .finish := by
  induction calls generalizing w with
  | nil => cases hc
  | cons d calls ih =>
    obtain ⟨ht,h⟩ := h
    obtain rfl | hc := List.mem_cons.mp hc
    · exact ht.flush_iff.mpr rfl
    · rw [List.drop_nil] at h
      exact ih h hc

/-- What the calls of `inflateGzip` on `payload`, with a buffer of `bufLen` bytes, have
to do with the payload, with each other and with the outcome. -/
structure Accounts (payload : List UInt8) (bufLen : ℕ) (calls : List (Call ε))
    (outcome : Outcome ε) : Prop where
  inRange : outcome ≠ .outOfRange
  bad_iff : outcome = .returned (.error .badGzipHeader) ↔ body payload = .error .rejected
  nil_iff : calls = [] ↔ body payload = .error .rejected ∨ bufLen = 0
  /-- Each call is given what the calls before it have left of the body, and writes
  behind what they have written. -/
  successive : ∀ pre c post, calls = pre ++ c :: post →
    ∃ input, body payload = .ok input ∧ consumed pre ≤ input.length ∧
      c.Takes (input.drop (consumed pre)) (written pre) bufLen
  finish_iff : ∀ c ∈ calls, c.flush = .finish ↔ c.input = []
  finish_last : ∀ pre c post, calls = pre ++ c :: post → c.flush = .finish →
    ∀ c' ∈ post, c'.flush = .finish
  overflow : outcome = .returned (.error .overflow) →
    written calls = bufLen ∧ ∀ c ∈ calls, c.result.status ≠ .ok .streamEnd
  /-- all the calls of an overflow, and else all but the last, made progress and went on -/
  goesOn : outcome = .returned (.error .overflow) → ∀ c ∈ calls, c.GoesOn
  failed : ∀ e, outcome = .returned (.error (.inflate e)) → ∃ init c, calls = init ++ [c] ∧
    (∀ d ∈ init, d.GoesOn) ∧ c.result.status = .error e
  stopped : (∃ text, outcome = .returned (.ok text)) ∨ outcome = .returned (.error .notUtf8) →
    ∃ init c, calls = init ++ [c] ∧ (∀ d ∈ init, d.GoesOn) ∧ c.Stops
  notUtf8 : outcome = .returned (.error .notUtf8) →
    String.fromUTF8? ⟨(calls.flatMap Call.chunk).toArray⟩ = none
  ok : ∀ text, outcome = .returned (.ok text) → text.toUTF8.data.toList = calls.flatMap Call.chunk

theorem toList_fromUTF8 {bytes : List UInt8} {text : String}
    (h : String.fromUTF8? ⟨bytes.toArray⟩ = some text) : text.toUTF8.data.toList = bytes := by
  rw [String.fromUTF8?] at h
  split at h
  · cases h
    rfl
  · cases h

/-- Behind the loop the written prefix is returned, if it is a text. -/
theorem conclude_finished {s : LoopState σ} (hs : s.Within) :
    (∃ text, conclude (ε := ε) s .finished = .returned (.ok text) ∧
      text.toUTF8.data.toList = s.buf.take s.written) ∨
    conclude (ε := ε) s .finished = .returned (.error .notUtf8) ∧
      String.fromUTF8? ⟨(s.buf.take s.written).toArray⟩ = none := by
  have hslice : sliceTo s.buf s.written = .ok (s.buf.take s.written) := if_pos hs
  rw [conclude,hslice]
  dsimp only
  split
  · next text htext => exact Or.inl ⟨text,rfl,toList_fromUTF8 htext⟩
  · next hnone => exact Or.inr ⟨rfl,hnone⟩

/-- A loop that is not stopped by a full buffer has made a call. -/
theorem Leaves.nil_iff {s s' : LoopState σ} {calls : List (Call ε)} {exit : Exit ε}
    (hwritten : s.written = 0) (hch : Chained s.input s.written s.buf.length calls)
    (hle : Leaves s calls exit s') : calls = [] ↔ s.buf.length = 0 := by
  constructor
  · rintro rfl
    have hfits := hle.fits
    cases exit with
    | overflow =>
      rw [← hle.buf_length,← hle.overflow rfl,hle.advance,hwritten]
      rfl
    | failed e | finished =>
      obtain ⟨init,c,hcalls,-⟩ := hfits
      simp at hcalls
    | outOfRange => exact hfits.elim
  · intro hempty
    cases calls with
    | nil => rfl
    | cons c calls =>
      have hroom := hch.1.room
      omega

/-- What follows the loop, for a run that keeps the accounts. -/
theorem accounts_of_leaves {payload input : List UInt8} {s s' : LoopState σ}
    {calls : List (Call ε)} {exit : Exit ε} (hbody : body payload = .ok input)
    (hinput : s.input = input) (hwritten : s.written = 0)
    (hch : Chained s.input s.written s.buf.length calls) (hle : Leaves s calls exit s') :
    Accounts payload s.buf.length calls (conclude s' exit) := by
  have hnil : calls = [] ↔ body payload = .error .rejected ∨ s.buf.length = 0 := by
    rw [hle.nil_iff hwritten hch,hbody]
    simp
  rw [hinput,hwritten] at hch
  have hbuf : s'.buf.take s'.written = calls.flatMap Call.chunk := by
    rw [hle.buf,hwritten]
    rfl
  have hsuccessive : ∀ pre c post, calls = pre ++ c :: post → ∃ input, body payload = .ok input ∧
      consumed pre ≤ input.length ∧ c.Takes (input.drop (consumed pre)) (written pre) s.buf.length := by
    rintro pre c post rfl
    obtain ⟨hcons,ht,_⟩ := hch.at_call
    rw [Nat.zero_add] at ht
    exact ⟨input,hbody,hcons,ht⟩
  have hfinish : ∀ c ∈ calls, c.flush = .finish ↔ c.input = [] := by
    intro c hc
    obtain ⟨pre,post,rfl⟩ := List.append_of_mem hc
    obtain ⟨_,ht,_⟩ := hch.at_call
    rw [ht.input_eq]
    exact ht.flush_iff
  have hlast : ∀ pre c post, calls = pre ++ c :: post → c.flush = .finish →
      ∀ c' ∈ post, c'.flush = .finish := by
    rintro pre c post rfl hf c' hc'
    obtain ⟨_,ht,hpost⟩ := hch.at_call
    rw [ht.input_eq,ht.flush_iff.mp hf,List.drop_nil] at hpost
    exact hpost.finish hc'
  have hgood : body payload ≠ .error .rejected := by simp [hbody]
  have hfits := hle.fits
  cases exit with
  | overflow =>
    have hfull := hle.overflow rfl
    rw [hle.advance,hwritten,Nat.zero_add,hle.buf_length] at hfull
    refine ⟨nofun,iff_of_false nofun hgood,hnil,hsuccessive,hfinish,hlast,fun _ => ⟨hfull,?_⟩,
      fun _ => hfits,nofun,nofun,nofun,nofun⟩
    intro c hc hend
    obtain ⟨⟨status,hstatus,hne⟩,-⟩ := hfits c hc
    exact hne (Except.ok.inj (hstatus.symm.trans hend))
  | failed e =>
    refine ⟨nofun,iff_of_false nofun hgood,hnil,hsuccessive,hfinish,hlast,nofun,nofun,?_,nofun,nofun,
      nofun⟩
    rintro e' ⟨⟩
    exact hfits
  | finished =>
    obtain ⟨text,htext,hbytes⟩ | ⟨hutf8,hnone⟩ := conclude_finished (ε := ε) hle.within
    · rw [htext]
      refine ⟨nofun,iff_of_false nofun hgood,hnil,hsuccessive,hfinish,hlast,nofun,nofun,nofun,
        fun _ => hfits,nofun,?_⟩
      rintro text' ⟨⟩
      exact hbytes.trans hbuf
    · rw [hutf8]
      rw [hbuf] at hnone
      exact ⟨nofun,iff_of_false nofun hgood,hnil,hsuccessive,hfinish,hlast,nofun,nofun,nofun,
        fun _ => hfits,fun _ => hnone,nofun⟩
  | outOfRange => exact hfits.elim

/-- For every inflater that stays within what it is given, the loop ends and keeps
exact accounts of the body and of the buffer. -/
theorem inflateGzip_accounts {inflate : Inflater σ ε} (hl : Lawful inflate) (reset : σ → σ)
    (d : Decompressor σ) (payload : List UInt8) {fuel : ℕ}
    (hfuel : payload.length + d.buf.length < fuel) :
    ∃ outcome d', (inflateGzip inflate reset fuel d payload).2 = some (outcome,d') ∧
      Accounts payload d.buf.length (inflateGzip inflate reset fuel d payload).1 outcome := by
  rcases body_cases payload with hb | ⟨p,hb⟩
  · rw [inflateGzip,hb]
    exact ⟨_,_,rfl,nofun,iff_of_true rfl hb,iff_of_true rfl (.inl hb),by simp,nofun,by simp,nofun,
      nofun,nofun,nofun,nofun,nofun⟩
  · let start : LoopState σ :=
      { state := reset d.state, buf := d.buf, input := payload.drop p, written := 0 }
    have hstart : start.Within := Nat.zero_le _
    have hfuel' : start.input.length + (start.buf.length - start.written) < fuel := by
      change (payload.drop p).length + (d.buf.length - 0) < fuel
      rw [List.length_drop]
      omega
    obtain ⟨⟨exit,s'⟩,hleft⟩ := loop_ends hl hstart hfuel'
    obtain ⟨hch,hle⟩ := loop_accounts hl fuel hstart
    have hacc := accounts_of_leaves (s := start) hb rfl rfl hch (hle exit s' hleft)
    rw [inflateGzip,hb]
    refine ⟨conclude s' exit,{ state := s'.state, buf := s'.buf },?_,hacc⟩
    dsimp only
    rw [hleft]
    rfl

/-- An inflater for one stored block that is the last of its stream: five bytes of
block header, then the data. Everything else is an error. -/
def inflateStored : Inflater Unit Unit := fun state input out _ =>
  match input with
  | 1 :: lo :: hi :: _ :: _ :: rest =>
    if u16FromLeBytes lo hi ≤ rest.length ∧ u16FromLeBytes lo hi ≤ out.length then
      (⟨5 + u16FromLeBytes lo hi,u16FromLeBytes lo hi,.ok .streamEnd⟩,state,
        rest.take (u16FromLeBytes lo hi) ++ out.drop (u16FromLeBytes lo hi))
    else (⟨0,0,.error ()⟩,state,out)
  | _ => (⟨0,0,.error ()⟩,state,out)

theorem lawful_inflateStored : Lawful inflateStored := by
  have hall : ∀ state input out flush,
      (inflateStored state input out flush).1.bytesConsumed ≤ input.length ∧
        (inflateStored state input out flush).1.bytesWritten ≤ out.length ∧
        (inflateStored state input out flush).2.2.length = out.length := by
    intro state input out flush
    unfold inflateStored
    split
    · next lo hi _ _ rest =>
      split
      · next hle =>
        obtain ⟨hr,ho⟩ := hle
        refine ⟨?_,ho,?_⟩
        · simp only [List.length_cons]
          omega
        · rw [List.length_append,List.length_take_of_le hr,List.length_drop]
          omega
      · exact ⟨Nat.zero_le _,Nat.zero_le _,rfl⟩
    · exact ⟨Nat.zero_le _,Nat.zero_le _,rfl⟩
  exact ⟨fun st i o f => (hall st i o f).1,fun st i o f => (hall st i o f).2.1,
    fun st i o f => (hall st i o f).2.2⟩

/-- A header without optional fields, the text `A` as a stored block, and a trailer. -/
def storedPayload : List UInt8 :=
  [0x1f,0x8b,8,0,0,0,0,0,0,3,1,1,0,254,255,0x41,0x8b,0x9e,0xd9,0xd3,1,0,0,0]

theorem inflateGzip_accounts_stored :
    storedPayload.length + 2 < 27 ∧
      ∃ outcome d', (inflateGzip inflateStored id 27 ⟨(),[7,7]⟩ storedPayload).2 =
          some (outcome,d') ∧
        Accounts storedPayload 2 (inflateGzip inflateStored id 27 ⟨(),[7,7]⟩ storedPayload).1
          outcome :=
  ⟨by decide,inflateGzip_accounts lawful_inflateStored id ⟨(),[7,7]⟩ storedPayload
    (show storedPayload.length + 2 < 27 by decide)⟩

example : ((inflateGzip inflateStored id 27 ⟨(),[7,7]⟩ storedPayload).1.map
    fun c => (c.input.length,c.offset,c.flush,c.chunk)) = [(14,0,.none,[0x41])] := by
  decide

end NsPixels.Decompress
